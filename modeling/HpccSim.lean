import HpccSim.BufferCommitment
import HpccSim.PauseResidency
import HpccSim.PfcLink
import HpccSim.LosslessPfc
import HpccSim.GoBackN
import HpccSim.SendWindow
import HpccSim.Quiescence
import HpccSim.Completion
import HpccSim.SketchWindow
import HpccSim.Demux
import HpccSim.EgressService
import HpccSim.Ownership
import HpccSim.RateGate
import HpccSim.RateDivision
import HpccSim.DynamicAi
import HpccSim.IdlePorts
import HpccSim.Reentry
import HpccSim.IntStamp
import HpccSim.Routing
import HpccSim.CongestionControl
import HpccSim.WakeUp
import HpccSim.HeavyBytes
import HpccSim.VariableWindow
import HpccSim.StandaloneFct
import HpccSim.AckInterval
import HpccSim.ZeroSettings
import HpccSim.ReserveGuarantee
import HpccSim.Pacing
import HpccSim.DctcpWindow
import HpccSim.DcqcnTimers
import HpccSim.PintPath
import HpccSim.SketchRate
import HpccSim.FlowBins
import HpccSim.FctAnalysis
import HpccSim.CountMin
import HpccSim.SimSetting
import HpccSim.HeaderWire
import HpccSim.TrafficGen
import HpccSim.FilterTermination
import HpccSim.Simulator
import HpccSim.StreamOrder
import HpccSim.LosslessNetwork
