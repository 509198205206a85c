import NestedStyles.Source.Disk
import NestedStyles.Proofs.Path.Segments

/-!
# Where paths lead

Following a path is taking one segment after the other: a segment leads to another place, or it is a link and puts the
segments of its target in front of those that are left (`step?`). What is said about one step carries over to whole
paths by `follow_induction`. A limit changes nothing about where a path leads, but only whether it leads there
(`follow_relax`): what is found is found without the limit as well, and by a path of its own that is not too long.

Names below a path lead where they lead from its place (`seek_join`), which is straight down where there are no links
on the way (`follow_straight`). The place of a path is named by a path that leads there without links
(`seek_absolutePath`).
-/

namespace NestedStyles

open NestedStyles.Path

theorem Entry.at?_append (entry : Entry) (names more : List (List Char)) :
    entry.at? (names ++ more) = (entry.at? names).bind (·.at? more) := by
  induction names generalizing entry with
  | nil => rfl
  | cons name names ih =>
    simp only [List.cons_append, Entry.at?]
    cases entry.child? name with
    | none => rfl
    | some below => exact ih below

theorem Entry.at?_singleton (entry : Entry) (name : List Char) : entry.at? [name] = entry.child? name := by
  cases h : entry.child? name <;> simp [Entry.at?, h]

theorem Entry.exists_mem_of_at? {entries : List (List Char × Entry)} {name : List Char} {names : List (List Char)}
    {found : Entry} (h : (Entry.directory entries).at? (name :: names) = some found) :
    ∃ below, (name, below) ∈ entries ∧ below.at? names = some found := by
  rw [Entry.at?, Entry.child?] at h
  split at h
  · cases h
  · next below hlookup =>
    obtain ⟨before, after, rfl, -⟩ := List.lookup_eq_some_iff.1 hlookup
    exact ⟨below, by simp, h⟩

namespace Disk

variable {disk : Disk} {limit : Option Nat} {links : Nat} {place segs rest : List (List Char)} {segment : List Char}
  {next : Nat × List (List Char) × List (List Char)} {target names : List (List Char)}

/-! ### The paths of places -/

theorem absolutePath_prefix_append (names more : List (List Char)) :
    absolutePath names <+: absolutePath (names ++ more) := by
  by_cases hmore : more = []
  · simp [hmore]
  · cases names with
    | nil => exact ⟨ofSegments more, rfl⟩
    | cons name names =>
      rw [absolutePath, absolutePath, ofSegments_append (List.cons_ne_nil _ _) hmore]
      exact ⟨'/' :: ofSegments more, rfl⟩

theorem asksDirectory_eq_false (hsegs : ∀ s ∈ segs, IsName s) : asksDirectory segs = false := by
  cases segs with
  | nil => rfl
  | cons name rest =>
    have hname := hsegs name List.mem_cons_self
    simp [asksDirectory, hname.isIdle_eq, hname.ne_upward]

theorem bytes_le_of_fits {most : Nat} (h : fits (some most) place rest = true) :
    bytes (absolutePath place.reverse) ≤ most := by
  simp only [fits, Option.all_some, decide_eq_true_iff, bytes_append] at h
  exact Nat.le_trans (Nat.le_add_right _ _) h

theorem fits_of_bytes_lt {most : Nat} (h : bytes (absolutePath place.reverse) < most) (rest : List (List Char)) :
    fits (some most) place rest = true := by
  have hslash : bytes (if asksDirectory rest then ['/'] else []) ≤ 1 := by
    split <;> decide
  simp only [fits, Option.all_some, decide_eq_true_iff, bytes_append]
  omega

/-! ### One segment -/

/-- Where a segment leads from a place: the links that may still be followed, the next place, and the segments that come
before those that are left. -/
def step? (disk : Disk) (links : Nat) (place : List (List Char)) (segment : List Char) :
    Option (Nat × List (List Char) × List (List Char)) :=
  match disk.top.at? place.reverse with
  | some (.directory entries) =>
    if isIdle segment then some (links, place, [])
    else if segment = upward then some (links, place.tail, [])
    else
      match entries.lookup segment, links with
      | none, _ => none
      | some (.link _), 0 => none
      | some (.link target), links + 1 => some (links, if isAbsolute target then [] else place, segments target)
      | some _, _ => some (links, segment :: place, [])
  | _ => none

/-- What is left when a place is asked about. A link is asked about as a link, whatever comes after it. -/
def asked (disk : Disk) (place rest : List (List Char)) : List (List Char) :=
  match disk.top.at? place.reverse with
  | some (.link _) => []
  | _ => rest

/-- Whether a limit lets a segment pass. -/
def admits (disk : Disk) (limit : Option Nat) (place : List (List Char)) (segment : List Char)
    (rest : List (List Char)) : Bool :=
  isIdle segment || segment = upward || fits limit (segment :: place) (disk.asked (segment :: place) rest)

theorem follow_eq (disk : Disk) (limit : Option Nat) (links : Nat) :
    disk.follow limit links = disk.followUntil limit fun place segments =>
      match links with
      | 0 => none
      | left + 1 => disk.follow limit left place segments := by
  cases links <;> rfl

@[simp]
theorem follow_nil : disk.follow limit links place [] = some place := by
  cases links <;> rfl

theorem follow_cons (disk : Disk) (limit : Option Nat) (links : Nat) (place : List (List Char)) (segment : List Char)
    (rest : List (List Char)) :
    disk.follow limit links place (segment :: rest) =
      (disk.step? links place segment).bind fun next =>
        if disk.admits limit place segment rest then disk.follow limit next.1 next.2.1 (next.2.2 ++ rest)
        else none := by
  rw [follow_eq, followUntil, ← follow_eq, step?]
  cases hat : disk.top.at? place.reverse with
  | none => rfl
  | some entry =>
    cases entry with
    | file | link => rfl
    | directory entries =>
      by_cases hidle : isIdle segment
      · simp [admits, hidle]
      · by_cases hup : segment = upward
        · simp [admits, hup, show isIdle upward = false from rfl]
        · have hbelow : disk.top.at? (segment :: place).reverse = entries.lookup segment := by
            rw [List.reverse_cons, Entry.at?_append, hat, Option.bind_some, Entry.at?_singleton, Entry.child?]
          simp only [admits, asked, hidle, hup, hbelow, Bool.false_eq_true, if_false, decide_false, Bool.false_or]
          rcases entries.lookup segment with _ | _ | _ | _
          case some.link =>
            cases links with
            | zero => exact ite_self none
            | succ left => rfl
          all_goals rfl

@[simp]
theorem admits_none : disk.admits none place segment rest = true := by
  simp [admits, fits]

/-- All that a segment can do. It starts from a directory, where it stays, goes up or goes down to what is no link; or
it is a link, which is one link less to follow. -/
theorem step?_cases (h : disk.step? links place segment = some next) :
    (∃ entries, disk.top.at? place.reverse = some (.directory entries)) ∧
      (isIdle segment = true ∧ next = (links, place, []) ∨ segment = upward ∧ next = (links, place.tail, []) ∨
        (isIdle segment = false ∧ segment ≠ upward ∧ next = (links, segment :: place, []) ∧
          ∃ entry, disk.top.at? (segment :: place).reverse = some entry ∧ ∀ target, entry ≠ .link target) ∨
        ∃ left target, links = left + 1 ∧ disk.top.at? (segment :: place).reverse = some (.link target) ∧
          next = (left, if isAbsolute target then [] else place, segments target)) := by
  rw [step?] at h
  split at h
  · next entries hat =>
    have hbelow : disk.top.at? (segment :: place).reverse = entries.lookup segment := by
      rw [List.reverse_cons, Entry.at?_append, hat, Option.bind_some, Entry.at?_singleton, Entry.child?]
    refine ⟨⟨entries, hat⟩, ?_⟩
    split at h
    · next hidle => exact .inl ⟨hidle, (Option.some.inj h).symm⟩
    · next hidle =>
      split at h
      · next hup => exact .inr (.inl ⟨hup, (Option.some.inj h).symm⟩)
      · next hup =>
        refine .inr (.inr ?_)
        cases hlookup : entries.lookup segment with
        | none => simp [hlookup] at h
        | some entry =>
          rw [hlookup] at hbelow
          cases entry with
          | link target =>
            cases links with
            | zero => simp [hlookup] at h
            | succ left =>
              simp only [hlookup, Option.some.injEq] at h
              exact .inr ⟨left, target, rfl, hbelow, h.symm⟩
          | file | directory =>
            simp only [hlookup, Option.some.injEq] at h
            exact .inl ⟨by simpa using hidle, hup, h.symm, _, hbelow, by simp⟩
  · cases h

/-- Only a link costs a link, and only a link brings new segments. -/
theorem step?_decreases (h : disk.step? links place segment = some next) :
    next.1 < links ∨ next.1 = links ∧ next.2.2 = [] := by
  obtain ⟨-, ⟨-, rfl⟩ | ⟨-, rfl⟩ | ⟨-, -, rfl, -⟩ | ⟨left, target, rfl, -, rfl⟩⟩ := step?_cases h
  · exact .inr ⟨rfl, rfl⟩
  · exact .inr ⟨rfl, rfl⟩
  · exact .inr ⟨rfl, rfl⟩
  · exact .inl (Nat.lt_succ_self left)

/-- What holds once nothing is left to follow or a segment leads nowhere, and holds of a path if it holds one step
further on, holds of every path. -/
theorem follow_induction (disk : Disk) {motive : Nat → List (List Char) → List (List Char) → Prop}
    (nil : ∀ links place, motive links place [])
    (stuck : ∀ links place segment rest, disk.step? links place segment = none → motive links place (segment :: rest))
    (step : ∀ links place segment rest next, disk.step? links place segment = some next →
      motive next.1 next.2.1 (next.2.2 ++ rest) → motive links place (segment :: rest))
    (links : Nat) (place segs : List (List Char)) : motive links place segs := by
  match segs with
  | [] => exact nil links place
  | segment :: rest =>
    cases hstep : disk.step? links place segment with
    | none => exact stuck links place segment rest hstep
    | some next =>
      refine step links place segment rest next hstep ?_
      have hless := step?_decreases hstep
      exact follow_induction disk nil stuck step next.1 next.2.1 (next.2.2 ++ rest)
termination_by (links, segs.length)
decreasing_by
  obtain hlt | ⟨heq, hnone⟩ := hless
  · exact Prod.Lex.left _ _ hlt
  · rw [heq, hnone]
    exact Prod.Lex.right _ (Nat.lt_succ_self _)

theorem follow_cons_eq_some (hstep : disk.step? links place segment = some next) :
    disk.follow limit links place (segment :: rest) = some target ↔
      disk.admits limit place segment rest = true ∧
        disk.follow limit next.1 next.2.1 (next.2.2 ++ rest) = some target := by
  rw [follow_cons, hstep, Option.bind_some]
  split
  · next h => simp [h]
  · next h => simp [h]

/-! ### Limits -/

theorem admits_relax {limit' : Option Nat} (hstep : disk.step? links place segment = some next)
    (hfits : ∀ p rest, (disk.top.at? p.reverse).isSome → fits limit p rest = true → fits limit' p rest = true)
    (h : disk.admits limit place segment rest = true) : disk.admits limit' place segment rest = true := by
  obtain ⟨-, ⟨hidle, -⟩ | ⟨hup, -⟩ | ⟨hidle, hup, -, entry, hat, -⟩ | ⟨left, target, -, hat, -⟩⟩ := step?_cases hstep
  · simp [admits, hidle]
  · simp [admits, hup]
  all_goals
    simp only [admits, Bool.or_eq_true] at h ⊢
    exact h.imp_right (hfits _ _ (by rw [hat]; rfl))

/-- Where a path leads with one limit it leads with any other that lets through what the first one did. -/
theorem follow_relax {limit' : Option Nat}
    (hfits : ∀ p rest, (disk.top.at? p.reverse).isSome → fits limit p rest = true → fits limit' p rest = true)
    (h : disk.follow limit links place segs = some target) : disk.follow limit' links place segs = some target := by
  induction links, place, segs using follow_induction disk with
  | nil links place => simpa using h
  | stuck links place segment rest hstep => simp [follow_cons, hstep] at h
  | step links place segment rest next hstep ih =>
    obtain ⟨hadmits, hrest⟩ := (follow_cons_eq_some hstep).1 h
    exact (follow_cons_eq_some hstep).2 ⟨admits_relax hstep hfits hadmits, ih hrest⟩

theorem follow_unlimited (h : disk.follow limit links place segs = some target) :
    disk.follow none links place segs = some target :=
  follow_relax (fun _ _ _ _ => rfl) h

/-- A place that is found within a limit is one where the path started or passed on the way up, or its own path is
within the limit. -/
theorem suffix_or_bytes_le_of_follow {most : Nat} (h : disk.follow (some most) links place segs = some target) :
    target <:+ place ∨ bytes (absolutePath target.reverse) ≤ most := by
  induction links, place, segs using follow_induction disk with
  | nil links place =>
    rw [follow_nil] at h
    exact .inl (Option.some.inj h ▸ List.suffix_refl place)
  | stuck links place segment rest hstep => simp [follow_cons, hstep] at h
  | step links place segment rest next hstep ih =>
    obtain ⟨hadmits, hrest⟩ := (follow_cons_eq_some hstep).1 h
    have hcases := ih hrest
    obtain ⟨-, ⟨-, rfl⟩ | ⟨-, rfl⟩ | ⟨hidle, hup, rfl, -⟩ | ⟨left, link, rfl, -, rfl⟩⟩ := step?_cases hstep
    · exact hcases
    · exact hcases.imp_left fun hsuffix => hsuffix.trans (List.tail_suffix place)
    · obtain hsuffix | hbytes := hcases
      · obtain rfl | hsuffix := List.suffix_cons_iff.1 hsuffix
        · have hfits : fits (some most) (segment :: place) (disk.asked (segment :: place) rest) = true := by
            simpa [admits, hidle, hup] using hadmits
          exact .inr (bytes_le_of_fits hfits)
        · exact .inl hsuffix
      · exact .inr hbytes
    · refine hcases.imp_left fun hsuffix => ?_
      split at hsuffix
      · exact hsuffix.trans (List.nil_suffix)
      · exact hsuffix

/-! ### Names below a path -/

/-- An empty segment in front of another one changes nothing: either needs a directory. -/
theorem follow_empty_cons (hsegs : segs ≠ []) :
    disk.follow limit links place ([] :: segs) = disk.follow limit links place segs := by
  obtain ⟨segment, rest, rfl⟩ := List.exists_cons_of_ne_nil hsegs
  rw [follow_cons]
  cases hat : disk.top.at? place.reverse with
  | none => simp [follow_cons, step?, hat]
  | some entry => cases entry <;> simp [follow_cons, step?, admits, hat, isIdle]

theorem seek_eq {path : List Char} (hne : path ≠ []) :
    disk.seek limit path = (disk.follow limit maxLinks (if isAbsolute path then [] else disk.working.reverse)
      (segments path)).map List.reverse := by
  rw [seek, if_neg (by simpa using hne)]

theorem seek_eq_some {path : List Char} (h : disk.seek limit path = some names) :
    path ≠ [] ∧ disk.follow limit maxLinks (if isAbsolute path then [] else disk.working.reverse) (segments path) =
      some names.reverse := by
  have hne : path ≠ [] := by
    rintro rfl
    cases h
  rw [seek_eq hne] at h
  obtain ⟨place, hplace, rfl⟩ := Option.map_eq_some_iff.1 h
  exact ⟨hne, by rw [hplace, List.reverse_reverse]⟩

theorem seek_unlimited {path : List Char} (h : disk.seek limit path = some names) :
    disk.seek none path = some names := by
  obtain ⟨hne, hfollow⟩ := seek_eq_some h
  rw [seek_eq hne, follow_unlimited hfollow, Option.map_some, List.reverse_reverse]

/-- A place that is found lies on the way to the working directory, or its own path is not too long. -/
theorem prefix_or_bytes_le_of_canonical? {path : List Char} (h : disk.canonical? path = some names) :
    names <+: disk.working ∨ bytes (absolutePath names) ≤ maxPathBytes := by
  have hcases := suffix_or_bytes_le_of_follow (seek_eq_some h).2
  rw [List.reverse_reverse] at hcases
  refine hcases.imp_left fun hsuffix => ?_
  split at hsuffix
  · rw [List.suffix_nil, List.reverse_eq_nil_iff] at hsuffix
    exact hsuffix ▸ List.nil_prefix
  · exact List.reverse_suffix.1 hsuffix

theorem step?_name {entry : Entry} (hat : disk.top.at? place.reverse = some entry) (hname : IsName segment)
    (hlink : ∀ target, entry.child? segment ≠ some (.link target)) :
    disk.step? links place segment = (entry.child? segment).map fun _ => (links, segment :: place, []) := by
  rw [step?, hat]
  cases entry with
  | file bytes => rfl
  | link target => rfl
  | directory entries =>
    simp only [hname.isIdle_eq, hname.ne_upward, Bool.false_eq_true, if_false]
    rcases hlookup : entries.lookup segment with _ | _ | target | _
    case some.link => exact absurd hlookup (hlink target)
    all_goals simp [Entry.child?, hlookup]

/-- Names are let through if the path along all of them is not too long. -/
theorem admits_names {names : List (List Char)} (hnames : ∀ s ∈ names, IsName s)
    (hbytes : ∀ most ∈ limit, bytes (absolutePath (place.reverse ++ segment :: names)) ≤ most) :
    disk.admits limit place segment names = true := by
  have hasked : asksDirectory (disk.asked (segment :: place) names) = false := by
    rw [asked]
    split
    · rfl
    · exact asksDirectory_eq_false hnames
  have hfits : fits limit (segment :: place) (disk.asked (segment :: place) names) = true := by
    cases limit with
    | none => rfl
    | some most =>
      have hprefix := absolutePath_prefix_append (segment :: place).reverse names
      rw [List.reverse_cons, List.append_assoc, List.singleton_append] at hprefix
      simp only [fits, hasked, Option.all_some, decide_eq_true_iff, Bool.false_eq_true, if_false, List.append_nil,
        List.reverse_cons]
      exact Nat.le_trans (bytes_mono hprefix) (hbytes most rfl)
  simp [admits, hfits]

/-- Names lead straight down as long as they meet no link, if the path along them is not too long. -/
theorem follow_straight {entry : Entry} (hat : disk.top.at? place.reverse = some entry)
    (hnames : ∀ s ∈ segs, IsName s) (hlinks : ∀ pre, pre <+: segs → ∀ target, entry.at? pre ≠ some (.link target))
    (hbytes : ∀ most ∈ limit, bytes (absolutePath (place.reverse ++ segs)) ≤ most) :
    disk.follow limit links place segs = (entry.at? segs).map fun _ => segs.reverse ++ place := by
  induction segs generalizing place entry with
  | nil => simp [Entry.at?]
  | cons segment rest ih =>
    obtain ⟨hname, hrest⟩ := List.forall_mem_cons.1 hnames
    have hlink : ∀ target, entry.child? segment ≠ some (.link target) := by
      intro target
      rw [← Entry.at?_singleton]
      exact hlinks [segment] (List.prefix_append [segment] rest) target
    rw [follow_cons, step?_name hat hname hlink, Entry.at?]
    cases hbelow : entry.child? segment with
    | none => rfl
    | some below =>
      have hat' : disk.top.at? (segment :: place).reverse = some below := by
        rw [List.reverse_cons, Entry.at?_append, hat, Option.bind_some, Entry.at?_singleton, hbelow]
      have hlinks' : ∀ pre, pre <+: rest → ∀ target, below.at? pre ≠ some (.link target) := by
        intro pre hpre target
        have := hlinks (segment :: pre) (List.cons_prefix_cons.2 ⟨rfl, hpre⟩) target
        rwa [Entry.at?, hbelow] at this
      have hstraight := ih hat' hrest hlinks' (by simpa using hbytes)
      simpa [admits_names hrest hbytes] using hstraight

/-! ### Places -/

theorem step?_names (h : disk.step? links place segment = some next) (hsegment : '/' ∉ segment)
    (hplace : ∀ n ∈ place, IsName n) : (∀ n ∈ next.2.1, IsName n) ∧ ∀ s ∈ next.2.2, '/' ∉ s := by
  obtain ⟨-, ⟨-, rfl⟩ | ⟨-, rfl⟩ | ⟨hidle, hup, rfl, -⟩ | ⟨left, target, rfl, -, rfl⟩⟩ := step?_cases h
  · exact ⟨hplace, by simp⟩
  · exact ⟨fun n hn => hplace n (List.mem_of_mem_tail hn), by simp⟩
  · exact ⟨List.forall_mem_cons.2 ⟨IsName.of_no_slash hidle hup hsegment, hplace⟩, by simp⟩
  · refine ⟨fun n hn => ?_, fun s hs => no_slash_of_mem_segments hs⟩
    split at hn
    · cases hn
    · exact hplace n hn

/-- Places are given by names, whatever segments led there. -/
theorem names_of_follow (h : disk.follow none links place segs = some target) (hsegs : ∀ s ∈ segs, '/' ∉ s)
    (hplace : ∀ n ∈ place, IsName n) : ∀ n ∈ target, IsName n := by
  induction links, place, segs using follow_induction disk with
  | nil links place =>
    rw [follow_nil] at h
    cases h
    exact hplace
  | stuck links place segment rest hstep => simp [follow_cons, hstep] at h
  | step links place segment rest next hstep ih =>
    obtain ⟨-, hrest⟩ := (follow_cons_eq_some hstep).1 h
    obtain ⟨hnext, hmore⟩ := step?_names hstep (hsegs segment List.mem_cons_self) hplace
    refine ih hrest (fun s hs => ?_) hnext
    exact (List.mem_append.1 hs).elim (hmore s) fun hs => hsegs s (List.mem_cons_of_mem _ hs)

theorem exists_directory_of_tail {entries : List (List Char × Entry)}
    (h : disk.top.at? place.reverse = some (.directory entries)) :
    ∃ entries, disk.top.at? place.tail.reverse = some (.directory entries) := by
  cases place with
  | nil => exact ⟨entries, h⟩
  | cons name place =>
    rw [List.reverse_cons, Entry.at?_append] at h
    obtain ⟨above, habove, hbelow⟩ := Option.bind_eq_some_iff.1 h
    rw [Entry.at?_singleton] at hbelow
    cases above with
    | directory entries => exact ⟨entries, habove⟩
    | file | link => cases hbelow

/-- In the place of a path there is something, and it is no link. -/
theorem exists_entry_of_follow (h : disk.follow none links place segs = some target) (hsegs : segs ≠ []) :
    ∃ entry, disk.top.at? target.reverse = some entry ∧ ∀ link, entry ≠ .link link := by
  -- after a step the same is true of the place that was reached, or a link has brought more segments
  suffices hstart : segs ≠ [] ∨ (∃ entry, disk.top.at? place.reverse = some entry ∧ ∀ link, entry ≠ .link link) →
      ∃ entry, disk.top.at? target.reverse = some entry ∧ ∀ link, entry ≠ .link link from hstart (.inl hsegs)
  clear hsegs
  intro hstart
  induction links, place, segs using follow_induction disk with
  | nil links place =>
    rw [follow_nil] at h
    cases h
    exact hstart.resolve_left fun hne => hne rfl
  | stuck links place segment rest hstep => simp [follow_cons, hstep] at h
  | step links place segment rest next hstep ih =>
    obtain ⟨-, hrest⟩ := (follow_cons_eq_some hstep).1 h
    refine ih hrest ?_
    obtain ⟨⟨entries, hat⟩, ⟨-, rfl⟩ | ⟨-, rfl⟩ | ⟨-, -, rfl, hentry⟩ | ⟨left, link, rfl, -, rfl⟩⟩ := step?_cases hstep
    · exact .inr ⟨_, hat, by simp⟩
    · obtain ⟨entries, habove⟩ := exists_directory_of_tail hat
      exact .inr ⟨_, habove, by simp⟩
    · exact .inr hentry
    · exact .inl (by simp [segments_ne_nil])

theorem exists_top_of_follow (h : disk.follow none links place segs = some target) (hsegs : segs ≠ []) :
    ∃ entries, disk.top = .directory entries := by
  obtain ⟨segment, rest, rfl⟩ := List.exists_cons_of_ne_nil hsegs
  rw [follow_cons] at h
  obtain ⟨next, hstep, -⟩ := Option.bind_eq_some_iff.1 h
  obtain ⟨⟨entries, hat⟩, -⟩ := step?_cases hstep
  cases htop : disk.top with
  | directory entries => exact ⟨entries, rfl⟩
  | file | link => cases hplace : place.reverse <;> simp [htop, hplace, Entry.at?, Entry.child?] at hat

theorem fileAt?_eq_some {bytes : ByteArray} :
    disk.fileAt? names = some bytes ↔ disk.top.at? names = some (.file bytes) := by
  rw [fileAt?]
  split <;> simp_all

theorem segments_absolutePath (hnames : ∀ n ∈ names, IsName n) (hne : names ≠ []) :
    segments (absolutePath names) = [] :: names := by
  have := segments_append [] (ofSegments names)
  rwa [segments_ofSegments (fun s hs => (hnames s hs).no_slash) hne] at this

/-- The place of a path is named by the absolute path along it, which leads there without links, if it is not too
long. -/
theorem seek_absolutePath {limit' : Option Nat} {path : List Char} (hworking : ∀ n ∈ disk.working, IsName n)
    (hpath : disk.seek limit path = some names) (hbytes : ∀ most ∈ limit', bytes (absolutePath names) ≤ most) :
    disk.seek limit' (absolutePath names) = some names := by
  obtain ⟨-, hfollow⟩ := seek_eq_some (seek_unlimited hpath)
  obtain ⟨entry, hat, hlink⟩ := exists_entry_of_follow hfollow (segments_ne_nil path)
  have hnames : ∀ n ∈ names, IsName n := by
    intro n hn
    refine names_of_follow hfollow (fun s hs => no_slash_of_mem_segments hs) ?_ n (List.mem_reverse.2 hn)
    intro m hm
    split at hm
    · cases hm
    · exact hworking m (List.mem_reverse.1 hm)
  rw [List.reverse_reverse] at hat
  have hroot : absolutePath names ≠ [] := List.cons_ne_nil _ _
  have habsolute : isAbsolute (absolutePath names) = true := rfl
  rw [seek_eq hroot, habsolute, if_pos rfl]
  by_cases hne : names = []
  · subst hne
    obtain ⟨entries, htop⟩ := exists_top_of_follow hfollow (segments_ne_nil path)
    have hsegments : segments (absolutePath []) = [[], []] := rfl
    simp [hsegments, follow_cons, step?, admits, isIdle, Entry.at?, htop]
  · have hlinks : ∀ pre, pre <+: names → ∀ target, disk.top.at? pre ≠ some (.link target) := by
      rintro pre ⟨post, rfl⟩ target hpre
      rw [Entry.at?_append, hpre, Option.bind_some] at hat
      cases post with
      | nil => exact hlink target (Option.some.inj hat).symm
      | cons name post => simp [Entry.at?, Entry.child?] at hat
    have htop : disk.top.at? ([] : List (List Char)).reverse = some disk.top := rfl
    rw [segments_absolutePath hnames hne, follow_empty_cons hne, follow_straight htop hnames hlinks hbytes, hat]
    simp

end Disk

end NestedStyles
