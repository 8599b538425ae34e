import Mathlib.Data.List.Nodup

/-!
# Items that pass the stages of a path

Items go along a path, from stage to stage; those at a stage wait in the order in which they came.
Read from the last stage back to the first, they are in the order in which they entered the path,
whichever item moves on next.

## Main definitions

* `Pipeline.content`: the items on the path, those that are farthest first.

## Main results

* `Pipeline.content_enter`, `Pipeline.content_advance`: an item that enters comes last, and one
  that moves on to the next stage changes nothing.
* `Pipeline.content_sublist`: items that get lost leave the order of the others.
-/

namespace Pipeline

variable {ν α : Type*}

/-- The items on a path, those that are farthest first; those at the stage `v` are `lane v`. -/
def content (lane : ν → List α) (path : List ν) : List α := path.reverse.flatMap lane

variable {lane lane' : ν → List α} {path before after : List ν} {v w : ν} {a : α}

@[simp] theorem content_nil : content lane [] = [] := rfl

theorem content_cons : content lane (v :: path) = content lane path ++ lane v := by
  simp [content]

theorem content_append :
    content lane (before ++ after) = content lane after ++ content lane before := by
  simp [content]

theorem content_congr (h : ∀ u ∈ path, lane' u = lane u) :
    content lane' path = content lane path := by
  induction path with
  | nil => rfl
  | cons u path ih =>
    rw [content_cons, content_cons, h u List.mem_cons_self,
      ih fun w hw => h w (List.mem_cons_of_mem u hw)]

/-- An item enters at the first stage. -/
theorem content_enter (hv : v ∉ path) (hlast : lane' v = lane v ++ [a])
    (hrest : ∀ u, u ≠ v → lane' u = lane u) :
    content lane' (v :: path) = content lane (v :: path) ++ [a] := by
  rw [content_cons, content_cons, hlast, content_congr fun u hu => hrest u fun heq => hv (heq ▸ hu),
    List.append_assoc]

/-- **The first item of a stage moves on to the next one.** -/
theorem content_advance (hnodup : (before ++ v :: w :: after).Nodup) (hv : lane v = a :: lane' v)
    (hw : lane' w = lane w ++ [a]) (hrest : ∀ u, u ≠ v → u ≠ w → lane' u = lane u) :
    content lane' (before ++ v :: w :: after) = content lane (before ++ v :: w :: after) := by
  obtain ⟨-, hstages, hdisjoint⟩ := List.nodup_append.1 hnodup
  obtain ⟨hv', hrest'⟩ := List.nodup_cons.1 hstages
  obtain ⟨hw', -⟩ := List.nodup_cons.1 hrest'
  have hbefore : content lane' before = content lane before :=
    content_congr fun u hu => hrest u (fun heq => hdisjoint u hu v List.mem_cons_self heq)
      fun heq => hdisjoint u hu w (List.mem_cons_of_mem v List.mem_cons_self) heq
  have hafter : content lane' after = content lane after :=
    content_congr fun u hu => hrest u
      (fun heq => hv' (List.mem_cons_of_mem w (heq ▸ hu))) fun heq => hw' (heq ▸ hu)
  simp only [content_append, content_cons, hbefore, hafter, hw, hv, List.append_assoc,
    List.singleton_append]

theorem content_sublist (h : ∀ u ∈ path, (lane' u).Sublist (lane u)) :
    (content lane' path).Sublist (content lane path) := by
  induction path with
  | nil => exact List.Sublist.refl _
  | cons u path ih =>
    rw [content_cons, content_cons]
    exact (ih fun w hw => h w (List.mem_cons_of_mem u hw)).append (h u List.mem_cons_self)

end Pipeline
