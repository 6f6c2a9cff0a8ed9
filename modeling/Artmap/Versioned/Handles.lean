import Artmap.Framework.Alone
import Artmap.Versioned.Readers

/-!
# Handles

A handle (`VersionedEntryRef`) keeps a version node that was in the chain of a leaf when it was
captured, and this leaf.  Later the node may have left the chain, and the leaf the tree; a new leaf
may have taken its key.

At rest, the tree finds for a key the leaf that it holds for it, which is the published leaf of this
key whose chain has not been killed (`AtRest`): a leaf is unlinked only once its chain has been
killed, and by then it is.
-/

namespace Artmap

namespace Versioned

variable {V K : Type} {spurious : List Bool} {c c' : (chains V).Config} {m : ChainMem V}
  {key : ℕ → K} {tree : K → Option ℕ} {l l' p : ℕ} {d : Cell V} {cs : List (Cell V)}

/-- A program that runs alone. -/
abbrev Alone {α : Type} (t : ℕ) (q : ChainM V α) (m : ChainMem V) (a : α) (m' : ChainMem V) :
    Prop :=
  Prog.Alone (fun {β} => (chains V).exec t (β := β)) q m a m'

end Versioned

end Artmap
