import ConfinedFs.Proofs.Layer.Isolation
import ConfinedFs.Proofs.Layer.JailLinks
import ConfinedFs.Proofs.Layer.MemoryJail
import ConfinedFs.Proofs.Layer.MountListing
import ConfinedFs.Proofs.Layer.NamedTemporaries
import ConfinedFs.Proofs.Layer.Nested
import ConfinedFs.Proofs.Layer.Standalone
import ConfinedFs.Proofs.LinkLimit
import ConfinedFs.Proofs.Lock.Holders
import ConfinedFs.Proofs.Memory.Binding
import ConfinedFs.Proofs.Memory.Clearing
import ConfinedFs.Proofs.Memory.Founding
import ConfinedFs.Proofs.Memory.ListedPaths
import ConfinedFs.Proofs.Memory.MakingDirs
import ConfinedFs.Proofs.Memory.Moving
import ConfinedFs.Proofs.Memory.Opening
import ConfinedFs.Proofs.Memory.ReadBack
import ConfinedFs.Proofs.Memory.Scanning
import ConfinedFs.Proofs.Memory.Session
import ConfinedFs.Proofs.Memory.Walking
import ConfinedFs.Proofs.Open.Alike
import ConfinedFs.Proofs.Open.Exclusive
import ConfinedFs.Proofs.Open.ReadOnly
import ConfinedFs.Proofs.Open.Sharing
import ConfinedFs.Proofs.Path.JoinLaws
import ConfinedFs.Proofs.Path.Remainder
import ConfinedFs.Proofs.Rooted.Agreement
import ConfinedFs.Proofs.Rooted.Confinement
import ConfinedFs.Proofs.Rooted.Creation
import ConfinedFs.Proofs.Rooted.Lifecycles
import ConfinedFs.Proofs.Rooted.MakingDirs
import ConfinedFs.Proofs.Rooted.Missing
import ConfinedFs.Proofs.Rooted.Refusal
import ConfinedFs.Proofs.Rooted.Spelling
import ConfinedFs.World
