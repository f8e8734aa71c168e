import CausalFrontierRatchet.MediaIntegrity
import CausalFrontierRatchet.OutsiderExclusion
import CausalFrontierRatchet.CrashSafety
import CausalFrontierRatchet.ChannelPositions
import CausalFrontierRatchet.FrontierRetention
import CausalFrontierRatchet.EquivocationProofs
import CausalFrontierRatchet.RemovalCompletion
import CausalFrontierRatchet.PrekeyGenerations
import CausalFrontierRatchet.PrekeyErasure
import CausalFrontierRatchet.FrontierCollapse
import CausalFrontierRatchet.RejectedFrames
import CausalFrontierRatchet.MediaPersistence
import CausalFrontierRatchet.Caches
import CausalFrontierRatchet.OwnOperations
import CausalFrontierRatchet.Compaction
import CausalFrontierRatchet.ReplayWindow
import CausalFrontierRatchet.LayoutBounds
import CausalFrontierRatchet.NalContainers
import CausalFrontierRatchet.ObuGrammar
import CausalFrontierRatchet.ChannelAgreement
import CausalFrontierRatchet.HashFraming
import CausalFrontierRatchet.NodeKeyStore
import CausalFrontierRatchet.InboundWindow
import CausalFrontierRatchet.KeyConfirmation
import CausalFrontierRatchet.Atomicity
import CausalFrontierRatchet.Reconciliation
