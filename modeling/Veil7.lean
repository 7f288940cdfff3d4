import Veil7.Chain
import Veil7.Relations.Merkle.Soundness
import Veil7.Core.Buffer
import Veil7.Core.Window
import Veil7.Library.Interpolation
import Veil7.Shamir.Field
import Veil7.Shamir.Sharing
import Veil7.Shamir.Recovery
import Veil7.Shamir.Secrecy
import Veil7.Library.HashChain
import Veil7.Transcript
import Veil7.Layers.Emit
import Veil7.Relations.Statements
import Veil7.Pipeline.Relation
import Veil7.Library.Interpreter
import Veil7.Vm.Machine
import Veil7.Vm.Reference
import Veil7.Vm.Operations
import Veil7.Vm.Refinement
import Veil7.Pipeline.Vm
import Veil7.Core.Checked
import Veil7.Library.Bits
import Veil7.Relations.Range.Model
import Veil7.Relations.Range.Soundness
import Veil7.Relations.ThresholdVerify
import Veil7.Threshold
import Veil7.Blind
import Veil7.Library.Simulation
import Veil7.Library.Sweep
import Veil7.Storage.Oram
import Veil7.Layers.Memlock
import Veil7.Layers.Commit
import Veil7.Layers.Verify
import Veil7.Library.LinkedLog
import Veil7.Interface.ChainEntry
import Veil7.Interface.ChainFiles
import Veil7.Pipeline.Batch
import Veil7.Separation
import Veil7.Interface.Streaming
import Veil7.Shamir.Acceptance
import Veil7.Vm.Calls
import Veil7.Relations.Merkle.Invalid
import Veil7.Interface.MerkleInclude
import Veil7.Relations.Lamport
import Veil7.Core.KeccakCt
import Veil7.EntropyHealth
import Veil7.Layers.LockBudget
import Veil7.Layers.Entropy
import Veil7.Pipeline.Oram
import Veil7.Pipeline.CommitReveal
import Veil7.Pipeline.Hybrid
import Veil7.Pipeline.BuiltIn
import Veil7.Layers.EntropySources
import Veil7.Layers.EntropyPool
import Veil7.Layers.KeySources
import Veil7.Relations.Merkle.Cost
import Veil7.Layers.LockOvershoot
import Veil7.Storage.OramBus
import Veil7.Layers.HealthCheck
import Veil7.Layers.Strength
import Veil7.Shamir.Tampering
import Veil7.Interface.FileMerkle
import Veil7.Interface.Directory
import Veil7.Interface.Commands
