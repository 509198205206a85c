import NestedStyles.Source.Folder
import NestedStyles.Proofs.Source.Naming
import NestedStyles.Proofs.Source.Places

/-!
# Staying below the base

A folder looks for a name in the place where it leads if that place is found, and along the path as it is written
otherwise. With a base that is found, the first of the two stays below the base, through whatever links and upward
segments the place was reached (`find_below_base`). The second one opens what has a place and yet none that is found,
which takes an entry whose own path is too long. Then a link leads out of the base unnoticed (`find_adrift`).
-/

namespace NestedStyles

open NestedStyles.Path

namespace Folder

variable {folder : Folder} {names : List String} {source : Source}

/-- The file where a folder looks for a name. -/
def bytes? (folder : Folder) (name : String) : Option ByteArray :=
  (folder.locate? name.toList).bind folder.disk.file?

theorem findAmong_cons_fst (name : String) :
    (folder.findAmong (name :: names)).1 =
      match folder.bytes? name with
      | none => (folder.findAmong names).1
      | some bytes => (String.fromUTF8? bytes).map fun contents => { uri := name, contents } := by
  rw [findAmong, bytes?]
  cases folder.locate? name.toList with
  | none => rfl
  | some path =>
    simp only [Option.bind_some]
    cases folder.disk.file? path with
    | none => rfl
    | some bytes =>
      dsimp only
      cases String.fromUTF8? bytes <;> rfl

/-- What a search finds is the text of the file of one of its names. -/
theorem exists_bytes_of_findAmong (h : (folder.findAmong names).1 = some source) :
    source.uri ∈ names ∧ ∃ bytes, folder.bytes? source.uri = some bytes ∧
      String.fromUTF8? bytes = some source.contents := by
  induction names with
  | nil => cases h
  | cons name names ih =>
    rw [findAmong_cons_fst] at h
    cases hbytes : folder.bytes? name with
    | none =>
      rw [hbytes] at h
      obtain ⟨hmem, hfile⟩ := ih h
      exact ⟨List.mem_cons_of_mem _ hmem, hfile⟩
    | some bytes =>
      rw [hbytes] at h
      obtain ⟨contents, hcontents, rfl⟩ := Option.map_eq_some_iff.1 h
      exact ⟨List.mem_cons_self, bytes, hbytes, hcontents⟩

end Folder

namespace Disk

variable {disk : Disk} {path : List Char} {names place : List (List Char)} {bytes : ByteArray}

theorem place?_eq_some :
    disk.place? path = some place ↔ Path.bytes path ≤ maxPathBytes ∧ disk.seek none path = some place := by
  rw [place?]
  split
  · next h => simp [Nat.not_le_of_lt h]
  · next h => simp [Nat.le_of_not_lt h]

theorem exists_place_of_file? (h : disk.file? path = some bytes) :
    ∃ place, disk.place? path = some place ∧ disk.top.at? place = some (.file bytes) := by
  obtain ⟨place, hplace, hfile⟩ := Option.bind_eq_some_iff.1 h
  exact ⟨place, hplace, fileAt?_eq_some.1 hfile⟩

/-- The path of a place opens what is there. -/
theorem file?_absolutePath (hworking : ∀ n ∈ disk.working, IsName n) {limit : Option Nat}
    (hseek : disk.seek limit path = some names) :
    disk.file? (absolutePath names) =
      if maxPathBytes < Path.bytes (absolutePath names) then none else disk.fileAt? names := by
  rw [file?, place?, seek_absolutePath hworking hseek (by simp)]
  split <;> rfl

/-- What has a place is found there, unless something on the disk has a path that is too long. -/
theorem canonical?_eq_or_exists_long (h : disk.seek none path = some place) :
    disk.canonical? path = some place ∨
      ∃ names, (disk.top.at? names).isSome ∧ maxPathBytes ≤ Path.bytes (absolutePath names) := by
  by_cases hlong : ∃ names, (disk.top.at? names).isSome ∧ maxPathBytes ≤ Path.bytes (absolutePath names)
  · exact .inr hlong
  · have hfits : ∀ p rest, (disk.top.at? p.reverse).isSome → fits none p rest = true →
        fits (some maxPathBytes) p rest = true := by
      intro p rest hsome _
      exact fits_of_bytes_lt (Nat.lt_of_not_le fun hle => hlong ⟨p.reverse, hsome, hle⟩) rest
    obtain ⟨hne, hfollow⟩ := seek_eq_some h
    rw [canonical?, seek_eq hne, follow_relax hfits hfollow, Option.map_some, List.reverse_reverse]
    exact .inl rfl

end Disk

namespace Folder

section

variable {disk : Disk} {base name : String} {home : List (List Char)}

/-- A name whose place is not found is opened as it is written. -/
theorem bytes?_of_lost (hrelative : isAbsolute name.toList = false)
    (hlost : disk.canonical? (join base.toList name.toList) = none) (hup : upward ∉ segments name.toList) :
    (Folder.mk disk (some base)).bytes? name = disk.file? (join base.toList name.toList) := by
  simp [bytes?, locate?, hrelative, hlost, hup]

/-- With a base that is found, the file for a name is in the place where the name leads. That place was found, and then
it is below the base; or it was not, and then the name is opened as it is written. -/
theorem exists_place_of_bytes? {bytes : ByteArray} (hworking : ∀ n ∈ disk.working, IsName n)
    (hbase : disk.canonical? base.toList = some home) (h : (Folder.mk disk (some base)).bytes? name = some bytes) :
    isAbsolute name.toList = false ∧ ∃ place, disk.seek none (join base.toList name.toList) = some place ∧
      disk.top.at? place = some (.file bytes) ∧
      (disk.canonical? (join base.toList name.toList) = some place ∧ home <+: place ∧
          disk.canonical? (Disk.absolutePath place) = some place ∨
        disk.canonical? (join base.toList name.toList) = none ∧ upward ∉ segments name.toList ∧
          disk.place? (join base.toList name.toList) = some place) := by
  obtain ⟨path, hlocate, hfile⟩ := Option.bind_eq_some_iff.1 h
  simp only [locate?, hbase] at hlocate
  split at hlocate
  · cases hlocate
  · next hrelative =>
    refine ⟨by simpa using hrelative, ?_⟩
    cases hplace : disk.canonical? (join base.toList name.toList) with
    | some place =>
      simp only [hplace] at hlocate
      split at hlocate
      · next hprefix =>
        cases hlocate
        rw [Disk.file?_absolutePath hworking hplace] at hfile
        split at hfile
        · cases hfile
        · next hshort =>
          have hown : disk.canonical? (Disk.absolutePath place) = some place :=
            Disk.seek_absolutePath hworking hplace (by simpa using hshort)
          exact ⟨place, Disk.seek_unlimited hplace, Disk.fileAt?_eq_some.1 hfile,
            .inl ⟨rfl, List.isPrefixOf_iff_prefix.1 hprefix, hown⟩⟩
      · cases hlocate
    | none =>
      simp only [hplace] at hlocate
      split at hlocate
      · cases hlocate
      · next hup =>
        cases hlocate
        obtain ⟨place, hopened, hat⟩ := Disk.exists_place_of_file? hfile
        exact ⟨place, (Disk.place?_eq_some.1 hopened).2, hat, .inr ⟨rfl, hup, hopened⟩⟩

end

/-- Whatever a folder with a base finds for an identifier is a file in the place where the name below the base leads.
Either that place was found: then it is below the place of the base, and its own path leads there as well. Or it was
not, although the name leads there: then the name never goes up, and something on the disk has a path that is too
long. -/
theorem find_below_base (disk : Disk) (base identifier : String) (home : List (List Char)) (source : Source)
    (hworking : ∀ name ∈ disk.working, IsName name) (hbase : disk.canonical? base.toList = some home)
    (hfind : ((Folder.mk disk (some base)).find identifier).1 = some source) :
    source.uri ∈ Source.candidates identifier ∧ isAbsolute source.uri.toList = false ∧
      ∃ place bytes, disk.seek none (join base.toList source.uri.toList) = some place ∧
        disk.top.at? place = some (.file bytes) ∧ String.fromUTF8? bytes = some source.contents ∧
        (disk.canonical? (join base.toList source.uri.toList) = some place ∧ home <+: place ∧
            disk.canonical? (Disk.absolutePath place) = some place ∨
          disk.canonical? (join base.toList source.uri.toList) = none ∧ upward ∉ segments source.uri.toList ∧
            disk.place? (join base.toList source.uri.toList) = some place ∧
            ∃ names, (disk.top.at? names).isSome ∧ Disk.maxPathBytes ≤ Path.bytes (Disk.absolutePath names)) := by
  obtain ⟨hcandidate, bytes, hbytes, hcontents⟩ := exists_bytes_of_findAmong hfind
  obtain ⟨hrelative, place, hseek, hat, hcases⟩ := exists_place_of_bytes? hworking hbase hbytes
  refine ⟨hcandidate, hrelative, place, bytes, hseek, hat, hcontents, ?_⟩
  refine hcases.imp_right fun hlost => ?_
  have hlong := (Disk.canonical?_eq_or_exists_long hseek).resolve_left (by simp [hlost.1])
  exact ⟨hlost.1, hlost.2.1, hlost.2.2, hlong⟩

/-- A site that is reached through a link, with a link inside it and one that leads out of it. -/
def linked : Disk where
  top := .directory [
    ("www".toList, .link "srv/site".toList),
    ("srv".toList, .directory [
      ("secret.scss".toList, .file "b".toUTF8),
      ("site".toList, .directory [
        ("kit".toList, .directory [("_tint.scss".toList, .file "a".toUTF8)]),
        ("in".toList, .link "kit".toList),
        ("out".toList, .link "/srv".toList)])])]

theorem find_linked :
    ((Folder.mk linked (some "www")).find "in/../in/tint").1 = some ⟨"in/../in/_tint.scss", "a"⟩ := by
  have hcandidates : Source.candidates "in/../in/tint" =
      ["in/../in/tint.scss", "in/../in/_tint.scss", "in/../in/tint"] := by
    decide +kernel
  have hplain : (Folder.mk linked (some "www")).bytes? "in/../in/tint.scss" = none := by
    decide +kernel
  have hunderscored : (Folder.mk linked (some "www")).bytes? "in/../in/_tint.scss" = some "a".toUTF8 := by
    decide +kernel
  rw [find, hcandidates, findAmong_cons_fst, hplain]
  dsimp only
  rw [findAmong_cons_fst, hunderscored]
  decide +kernel

theorem linked_below_base :
    ∃ place bytes, linked.canonical? (join "www".toList "in/../in/_tint.scss".toList) = some place ∧
      ["srv".toList, "site".toList] <+: place ∧ linked.top.at? place = some (.file bytes) ∧
      String.fromUTF8? bytes = some "a" ∧ linked.canonical? (Disk.absolutePath place) = some place := by
  have hbase : linked.canonical? "www".toList = some ["srv".toList, "site".toList] := by
    decide +kernel
  have hfound : (linked.canonical? (join "www".toList "in/../in/_tint.scss".toList)).isSome := by
    decide +kernel
  obtain ⟨-, -, place, bytes, -, hat, hcontents, ⟨hplace, hbelow, hown⟩ | ⟨hlost, -⟩⟩ :=
    find_below_base linked "www" "in/../in/tint" _ _ (by simp [linked]) hbase find_linked
  · exact ⟨place, bytes, hplace, hbelow, hat, hcontents, hown⟩
  · have hlost : linked.canonical? (join "www".toList "in/../in/_tint.scss".toList) = none := hlost
    simp only [hlost, Option.isSome_none, Bool.false_eq_true] at hfound

/-- The link that leads out of the site leads to a file, but the folder does not look there. -/
example : linked.file? "www/out/secret.scss".toList = some "b".toUTF8 ∧
    (Folder.mk linked (some "www")).bytes? "out/secret.scss" = none := by
  decide +kernel

end Folder

/-! ### Paths that are too long -/

namespace Entry

/-- A tree with nothing in it but an entry at the end of a way down. -/
def under (names : List (List Char)) (entry : Entry) : Entry :=
  names.foldr (fun name below => .directory [(name, below)]) entry

theorem at?_under_self (names : List (List Char)) (entry : Entry) : (under names entry).at? names = some entry := by
  induction names with
  | nil => rfl
  | cons name names ih =>
    have hchild : (under (name :: names) entry).child? name = some (under names entry) := by simp [under, child?]
    rw [at?, hchild]
    exact ih

/-- On the way down to a file there are directories only. -/
theorem at?_under_file {names others : List (List Char)} {bytes : ByteArray} {found : Entry}
    (h : (under names (.file bytes)).at? others = some found) :
    (∃ entries, found = .directory entries) ∨ others = names ∧ found = .file bytes := by
  induction names generalizing others with
  | nil =>
    cases others with
    | nil => exact .inr ⟨rfl, (Option.some.inj h).symm⟩
    | cons other others => simp [under, at?, child?] at h
  | cons name names ih =>
    cases others with
    | nil => exact .inl ⟨_, (Option.some.inj h).symm⟩
    | cons other others =>
      by_cases hname : other = name
      · subst hname
        have hchild : (under (other :: names) (.file bytes)).child? other = some (under names (.file bytes)) := by
          simp [under, child?]
        rw [at?, hchild] at h
        exact (ih h).imp_right fun heq => ⟨by rw [heq.1], heq.2⟩
      · have hchild : (under (name :: names) (.file bytes)).child? other = none := by
          simp [under, child?, List.lookup_cons, beq_false_of_ne hname]
        simp [at?, hchild] at h

end Entry

namespace Folder

/-- A way down that takes more than half of what a path may have. -/
def far : List (List Char) := List.replicate 12 (List.replicate 200 'd')

/-- A file at the end of the way down and as much again. -/
def remote : List (List Char) := far ++ far ++ ["x.scss".toList]

theorem isName_of_mem_remote : ∀ name ∈ remote, IsName name := by
  have hd : IsName (List.replicate 200 'd') := by decide +kernel
  have hx : IsName "x.scss".toList := by decide +kernel
  intro name h
  simp only [remote, far, List.mem_append, List.mem_replicate, List.mem_singleton] at h
  obtain (⟨-, rfl⟩ | ⟨-, rfl⟩) | rfl := h
  · exact hd
  · exact hd
  · exact hx

theorem complete_of_last {above : List (List Char)} (h : above ≠ []) :
    Source.extension <:+ ofSegments (above ++ ["x.scss".toList]) := by
  rw [ofSegments_append h (List.cons_ne_nil _ _)]
  exact ⟨ofSegments above ++ "/x".toList, by simp [ofSegments, Source.extension]⟩

/-- A base with nothing in it but a link, which leads half the way down to a file outside. -/
def adrift : Disk where
  top := .directory [
    ("base".toList, .directory [("l".toList, .link (ofSegments (upward :: "out".toList :: far)))]),
    ("out".toList, .under remote (.file "hi".toUTF8))]

/-- The other half of the way, from the link on. -/
def adriftName : String := String.ofList (ofSegments ("l".toList :: far ++ ["x.scss".toList]))

theorem toList_adriftName : adriftName.toList = ofSegments ("l".toList :: far ++ ["x.scss".toList]) :=
  String.toList_ofList

theorem segments_adriftName : segments adriftName.toList = "l".toList :: far ++ ["x.scss".toList] := by
  rw [toList_adriftName]
  apply segments_ofSegments _ (by simp)
  intro name hname
  rcases List.mem_cons.1 hname with rfl | hname
  · decide
  · exact (isName_of_mem_remote name (by simp_all [remote])).no_slash

theorem isAbsolute_adriftName : isAbsolute adriftName.toList = false := by
  apply isAbsolute_eq_false
  rw [segments_adriftName]
  decide +kernel

theorem join_adriftName : join "base".toList adriftName.toList = "base".toList ++ '/' :: adriftName.toList := by
  simp [join, isAbsolute_adriftName]

theorem segments_link : segments (ofSegments (upward :: "out".toList :: far)) = upward :: "out".toList :: far := by
  apply segments_ofSegments _ (by simp)
  intro name hname
  rcases List.mem_cons.1 hname with rfl | hname
  · decide
  · rcases List.mem_cons.1 hname with rfl | hname
    · decide
    · exact (isName_of_mem_remote name (by simp [remote, hname])).no_slash

theorem at?_adrift (names : List (List Char)) :
    adrift.top.at? ("out".toList :: names) = (Entry.under remote (.file "hi".toUTF8)).at? names := rfl

/-- The name leads out of the base and down to the file. -/
theorem seek_adrift : adrift.seek none (join "base".toList adriftName.toList) = some ("out".toList :: remote) := by
  have hne : join "base".toList adriftName.toList ≠ [] := by
    rw [join_adriftName]
    exact List.cons_ne_nil _ _
  have hstart : (if isAbsolute (join "base".toList adriftName.toList) then [] else adrift.working.reverse) = [] := by
    split <;> rfl
  have hsegments : segments (join "base".toList adriftName.toList) =
      "base".toList :: "l".toList :: (far ++ ["x.scss".toList]) := by
    rw [join_adriftName, segments_append, segments_adriftName]
    rfl
  have hbase : adrift.step? Disk.maxLinks [] "base".toList = some (Disk.maxLinks, ["base".toList], []) := rfl
  have hlink : adrift.step? Disk.maxLinks ["base".toList] "l".toList =
      some (39, ["base".toList], segments (ofSegments (upward :: "out".toList :: far))) := rfl
  have hup : adrift.step? 39 ["base".toList] upward = some (39, [], []) := rfl
  have hlinks : ∀ pre, pre <+: "out".toList :: remote → ∀ target, adrift.top.at? pre ≠ some (.link target) := by
    intro pre hpre target hat
    cases pre with
    | nil => cases hat
    | cons name pre =>
      obtain ⟨rfl, -⟩ := List.cons_prefix_cons.1 hpre
      rw [at?_adrift] at hat
      rcases Entry.at?_under_file hat with ⟨entries, heq⟩ | ⟨-, heq⟩ <;> cases heq
  have hstraight : adrift.follow none 39 [] ("out".toList :: remote) = some ("out".toList :: remote).reverse := by
    have hnames := List.forall_mem_cons.2 ⟨show IsName "out".toList by decide, isName_of_mem_remote⟩
    rw [Disk.follow_straight rfl hnames hlinks (by simp), at?_adrift, Entry.at?_under_self]
    simp
  rw [Disk.seek_eq hne, hstart, hsegments, Disk.follow_cons, hbase]
  simp only [Option.bind_some, Disk.admits_none, if_true, List.nil_append]
  rw [Disk.follow_cons, hlink, segments_link]
  simp only [Option.bind_some, Disk.admits_none, if_true, List.cons_append]
  rw [Disk.follow_cons, hup]
  simp only [Option.bind_some, Disk.admits_none, if_true, List.nil_append, ← List.append_assoc]
  rw [show "out".toList :: (far ++ far ++ ["x.scss".toList]) = "out".toList :: remote from rfl, hstraight]
  simp

theorem canonical?_adrift : adrift.canonical? (join "base".toList adriftName.toList) = none := by
  cases hplace : adrift.canonical? (join "base".toList adriftName.toList) with
  | none => rfl
  | some place =>
    obtain rfl := Option.some.inj (seek_adrift.symm.trans (Disk.seek_unlimited hplace))
    have hlong : Disk.maxPathBytes < bytes (Disk.absolutePath ("out".toList :: remote)) := by
      rw [bytes_eq_length (by decide +kernel)]
      decide +kernel
    obtain hprefix | hbytes := Disk.prefix_or_bytes_le_of_canonical? hplace
    · exact absurd (List.prefix_nil.1 hprefix) (List.cons_ne_nil _ _)
    · omega

/-- The folder has lost the place of the name, and opens it as it is written. -/
theorem bytes?_adriftName : (Folder.mk adrift (some "base")).bytes? adriftName = some "hi".toUTF8 := by
  have hup : upward ∉ segments adriftName.toList := by
    rw [segments_adriftName]
    decide +kernel
  have hshort : ¬ Disk.maxPathBytes < bytes (join "base".toList adriftName.toList) := by
    rw [join_adriftName, toList_adriftName, bytes_eq_length (by decide +kernel)]
    decide +kernel
  have hfile : adrift.fileAt? ("out".toList :: remote) = some "hi".toUTF8 := by
    rw [Disk.fileAt?_eq_some, at?_adrift, Entry.at?_under_self]
  rw [bytes?_of_lost isAbsolute_adriftName canonical?_adrift hup, Disk.file?, Disk.place?, if_neg hshort, seek_adrift,
    Option.bind_some, hfile]

/-- A folder finds a file outside its base, and there is none below it. -/
theorem find_adrift :
    adrift.canonical? "base".toList = some ["base".toList] ∧
      (∀ names bytes, adrift.top.at? ("base".toList :: names) ≠ some (.file bytes)) ∧
      ((Folder.mk adrift (some "base")).find adriftName).1 = some ⟨adriftName, "hi"⟩ := by
  refine ⟨?_, ?_, ?_⟩
  · decide +kernel
  · intro names bytes hat
    have hat : (Entry.directory [("l".toList, .link (ofSegments (upward :: "out".toList :: far)))]).at? names =
        some (.file bytes) := hat
    cases names with
    | nil => cases hat
    | cons name names =>
      obtain ⟨below, hmem, hat⟩ := Entry.exists_mem_of_at? hat
      obtain rfl : below = .link _ := (Prod.mk.inj (List.mem_singleton.1 hmem)).2
      cases names <;> cases hat
  · have hcontents : String.fromUTF8? "hi".toUTF8 = some "hi" := by
      decide +kernel
    have hcomplete : Source.extension <:+ adriftName.toList := by
      rw [toList_adriftName]
      exact complete_of_last (List.cons_ne_nil _ _)
    rw [find, Source.candidates_of_complete hcomplete, findAmong_cons_fst, bytes?_adriftName]
    simp only [hcontents, Option.map_some]

end Folder

end NestedStyles
