import AbstractionIdentity.Binding.Lifecycle
import AbstractionIdentity.Windows.ServerAdmission
import AbstractionIdentity.Windows.Verdicts
import AbstractionIdentity.Identity.VolumeProbe
import AbstractionIdentity.Listen.Admission
import AbstractionIdentity.Listen.Synchrony
import AbstractionIdentity.Listen.Trust
import AbstractionIdentity.Listen.AtMostOnce
import AbstractionIdentity.Listen.PipeHandles
import AbstractionIdentity.Listen.ScriptedCall
import AbstractionIdentity.Listen.FailureAtomic
import AbstractionIdentity.Listen.ListenerDrain
import AbstractionIdentity.Darwin.RequestAnswer
import AbstractionIdentity.Darwin.ListenerAccounting
import AbstractionIdentity.Listen.ServerGuard
import AbstractionIdentity.Python.CancellationProgress
import AbstractionIdentity.Listen.ReplyRewrite
import AbstractionIdentity.Listen.LateRefusal
import AbstractionIdentity.Listen.ProofRefusal
import AbstractionIdentity.Listen.UnixListener
import AbstractionIdentity.Linux.Ceiling
import AbstractionIdentity.PrivateDir.ProtectModels
import AbstractionIdentity.PrivateDir.ModelsRoot
import AbstractionIdentity.Identity.SubjectProgram
import AbstractionIdentity.Unix.Spelling
import AbstractionIdentity.Unix.Inside
import AbstractionIdentity.Windows.Within
import AbstractionIdentity.Windows.VersionLayout
import AbstractionIdentity.Listen.WriteAccount
import AbstractionIdentity.Listen.EndpointAdmission
import AbstractionIdentity.Linux.StartTime
import AbstractionIdentity.Linux.UnitProgram
import AbstractionIdentity.Linux.LoopbackOutcomes
import AbstractionIdentity.Windows.VersionAddresses
import AbstractionIdentity.Windows.Sockets
import AbstractionIdentity.Windows.PathName
import AbstractionIdentity.Windows.Catalog
import AbstractionIdentity.Api.Text
import AbstractionIdentity.Listen.ReplyMatch
