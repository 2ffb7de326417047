import Cantrip.Nbt.RoundTrip
import Cantrip.Nbt.PagedFidelity
import Cantrip.Recovery.Fidelity
import Cantrip.Workspace.Center
import Cantrip.Workspace.RoundTrip
import Cantrip.Workspace.Repository
import Cantrip.Interaction.Release
import Cantrip.Interaction.Accounting
import Cantrip.Interaction.Schedule
import Cantrip.Tunnels.Safety
import Cantrip.Relay.Courtesy
import Cantrip.Usage.Accounting
import Cantrip.Cron.Schedule
import Cantrip.Cron.Termination
import Cantrip.Coordination.Ownership
import Cantrip.NativeHistory.Exact
import Cantrip.Live.Resume
import Cantrip.Web.Blocking
import Cantrip.Workers.Correlation
import Cantrip.Nbt.TextPages
import Cantrip.Nbt.EditData
import Cantrip.Nbt.ByteSpool
import Cantrip.Nbt.Fragments
import Cantrip.Nbt.TreePage
import Cantrip.Nbt.ArrayMatches
import Cantrip.Nbt.Fallback
import Cantrip.Tunnels.Sequences
import Cantrip.Gateway.Conserve
import Cantrip.Wire.ContractBlocks
import Cantrip.Wire.DateText
import Cantrip.Wire.Grammar
import Cantrip.WorkerLinks.Assembly
import Cantrip.WorkerLinks.PeerPolicy
import Cantrip.WorkerLinks.Signalling
import Cantrip.Workers.Places
import Cantrip.Redactor.Leaks
import Cantrip.Nbt.PersistentMap
import Cantrip.Nbt.PersistentSequence
