import NestedStyles.Proofs.Path.Segments

/-!
# Normal paths

A path leads from a directory to another one: an idle segment stays there, an upward segment goes to the directory
above unless there is none, and a name goes down (`destination`). Normalizing keeps a trail of the segments that count.
The trail of a path consists of names, below upward segments if the path is relative (`IsTrail`), and leads where the
path leads. So a normal path leads to the same place, is its own normal form, and is the only normal path that leads
there from every directory (`normalize_eq_iff`).
-/

namespace NestedStyles.Path

variable {path more segment : List Char} {segs trail : List (List Char)} {absolute : Bool}

/-! ### Steps -/

/-- The segments of a path that lead somewhere. -/
def steps (path : List Char) : List (List Char) := (segments path).filter fun segment => !isIdle segment

/-- The path that is written with some segments. -/
def written (absolute : Bool) (segs : List (List Char)) : List Char :=
  (if absolute then ['/'] else []) ++ ofSegments segs

@[simp]
theorem steps_nil : steps [] = [] := rfl

theorem steps_append (path more : List Char) : steps (path ++ '/' :: more) = steps path ++ steps more := by
  rw [steps, segments_append, List.filter_append]
  rfl

@[simp]
theorem steps_slash_cons (path : List Char) : steps ('/' :: path) = steps path := steps_append [] path

theorem steps_ofSegments (h : ∀ s ∈ segs, '/' ∉ s) :
    steps (ofSegments segs) = segs.filter fun segment => !isIdle segment := by
  by_cases hne : segs = []
  · subst hne
    rfl
  · rw [steps, segments_ofSegments h hne]

theorem steps_written (h : ∀ s ∈ segs, '/' ∉ s) (hidle : ∀ s ∈ segs, isIdle s = false) :
    steps (written absolute segs) = segs := by
  have hsteps : steps (ofSegments segs) = segs := by
    rw [steps_ofSegments h, List.filter_eq_self]
    intro s hs
    rw [hidle s hs]
    rfl
  cases absolute with
  | true => exact (steps_slash_cons _).trans hsteps
  | false => exact hsteps

theorem isAbsolute_written (h : ∀ s ∈ segs, '/' ∉ s) (hidle : ∀ s ∈ segs, isIdle s = false) :
    isAbsolute (written absolute segs) = absolute := by
  cases absolute with
  | true => rfl
  | false =>
    by_cases hne : segs = []
    · subst hne
      rfl
    · apply isAbsolute_eq_false
      intro hmem
      rw [written, if_neg Bool.false_ne_true, List.nil_append, segments_ofSegments h hne] at hmem
      exact absurd (hidle [] hmem) (by decide)

/-- Idle segments can be left out where they change nothing. -/
theorem foldl_segments {f : List (List Char) → List Char → List (List Char)}
    (h : ∀ place segment, isIdle segment = true → f place segment = place) (path : List Char)
    (start : List (List Char)) : (segments path).foldl f start = (steps path).foldl f start := by
  rw [steps, List.foldl_filter]
  congr 1
  funext place segment
  by_cases hidle : isIdle segment = true
  · simp [hidle, h place segment hidle]
  · simp [hidle]

/-! ### Where a path leads -/

/-- The directory that a segment leads to from another one. Directories are given by their names, innermost first.
There is nothing above the top. -/
def move (place : List (List Char)) (segment : List Char) : List (List Char) :=
  if isIdle segment then place
  else if segment = upward then place.tail
  else segment :: place

/-- The directory that a path leads to. An absolute path starts at the top. -/
def destination (start : List (List Char)) (path : List Char) : List (List Char) :=
  (segments path).foldl move (if isAbsolute path then [] else start)

theorem move_of_isIdle (place : List (List Char)) (segment : List Char) (h : isIdle segment = true) :
    move place segment = place := by
  rw [move, if_pos h]

@[simp]
theorem move_upward (place : List (List Char)) : move place upward = place.tail := rfl

theorem IsName.move_eq (h : IsName segment) (place : List (List Char)) : move place segment = segment :: place := by
  rw [move, h.isIdle_eq, if_neg Bool.false_ne_true, if_neg h.ne_upward]

theorem destination_eq (start : List (List Char)) (path : List Char) :
    destination start path = (steps path).foldl move (if isAbsolute path then [] else start) :=
  foldl_segments move_of_isIdle path _

theorem foldl_move_replicate (climbs : Nat) (place : List (List Char)) :
    (List.replicate climbs upward).foldl move place = place.drop climbs := by
  induction climbs generalizing place with
  | zero => rfl
  | succ climbs ih => rw [List.replicate_succ, List.foldl_cons, move_upward, ih, List.drop_tail]

theorem foldl_move_names {names : List (List Char)} (h : ∀ n ∈ names, IsName n) (place : List (List Char)) :
    names.foldl move place = names.reverse ++ place := by
  induction names generalizing place with
  | nil => rfl
  | cons name names ih =>
    obtain ⟨hname, hnames⟩ := List.forall_mem_cons.1 h
    rw [List.foldl_cons, hname.move_eq, ih hnames, List.reverse_cons, List.append_assoc]
    rfl

/-! ### Trails -/

/-- Innermost first, a trail has names and then upward segments. There are none of these in an absolute path. -/
inductive IsTrail (absolute : Bool) : List (List Char) → Prop
  | climb (climbs : Nat) (h : absolute = true → climbs = 0) : IsTrail absolute (List.replicate climbs upward)
  | name {segment : List Char} {trail : List (List Char)} (hname : IsName segment) (hrest : IsTrail absolute trail) :
      IsTrail absolute (segment :: trail)

/-- The segments that count when a path is normalized, innermost first. -/
def trailOf (path : List Char) : List (List Char) := (segments path).foldl (enter (isAbsolute path)) []

theorem normalize_eq (path : List Char) : normalize path = written (isAbsolute path) (trailOf path).reverse := rfl

theorem enter_of_isIdle (trail : List (List Char)) (segment : List Char) (h : isIdle segment = true) :
    enter absolute trail segment = trail := by
  simp [enter, h]

theorem IsName.enter_eq (h : IsName segment) (absolute : Bool) (trail : List (List Char)) :
    enter absolute trail segment = segment :: trail := by
  simp [enter, h.isIdle_eq, h.ne_upward]

/-- Going up leaves a name. -/
theorem IsName.enter_upward (h : IsName segment) (absolute : Bool) (trail : List (List Char)) :
    enter absolute (segment :: trail) upward = trail := by
  have hidle : isIdle upward = false := by decide
  simp [enter, hidle, h.ne_upward]

/-- Where there is no name to leave, going up adds an upward segment to a relative path. -/
theorem enter_upward_replicate (climbs : Nat) (h : absolute = true → climbs = 0) :
    enter absolute (List.replicate climbs upward) upward =
      if absolute then [] else List.replicate (climbs + 1) upward := by
  have hidle : isIdle upward = false := by decide
  cases climbs with
  | zero => simp [enter, hidle]
  | succ climbs =>
    have habsolute : absolute = false := by
      cases absolute with
      | true => exact absurd (h rfl) (Nat.succ_ne_zero climbs)
      | false => rfl
    simp [enter, hidle, habsolute, List.replicate_succ]

namespace IsTrail

theorem nil : IsTrail absolute [] := climb 0 fun _ => rfl

theorem mem (h : IsTrail absolute trail) (hmem : segment ∈ trail) : isIdle segment = false ∧ '/' ∉ segment := by
  induction h with
  | climb climbs _ =>
    rw [List.eq_of_mem_replicate hmem]
    decide
  | name hname _ ih =>
    rcases List.mem_cons.1 hmem with rfl | hmem
    · exact ⟨hname.isIdle_eq, hname.no_slash⟩
    · exact ih hmem

/-- One more segment leaves a trail, and leads where the segment leads from where the trail led. -/
theorem enter (h : IsTrail absolute trail) (hslash : '/' ∉ segment) :
    IsTrail absolute (Path.enter absolute trail segment) ∧ ∀ start, (absolute = true → start = []) →
      (Path.enter absolute trail segment).reverse.foldl move start = move (trail.reverse.foldl move start) segment := by
  by_cases hidle : isIdle segment = true
  · rw [enter_of_isIdle trail segment hidle]
    exact ⟨h, fun start _ => (move_of_isIdle _ _ hidle).symm⟩
  · by_cases hup : segment = upward
    · subst hup
      cases h with
      | climb climbs hclimbs =>
        rw [enter_upward_replicate climbs hclimbs]
        cases absolute with
        | true => simp [hclimbs rfl, nil]
        | false => exact ⟨climb (climbs + 1) (by simp), by simp [List.replicate_succ]⟩
      | name hname hrest =>
        rw [hname.enter_upward]
        exact ⟨hrest, by simp [hname.move_eq]⟩
    · have hname : IsName segment := .of_no_slash (by simpa using hidle) hup hslash
      rw [hname.enter_eq]
      exact ⟨name hname h, by simp [hname.move_eq]⟩

theorem foldl_enter (h : IsTrail absolute trail) (hsegs : ∀ s ∈ segs, '/' ∉ s) :
    IsTrail absolute (segs.foldl (Path.enter absolute) trail) ∧ ∀ start, (absolute = true → start = []) →
      (segs.foldl (Path.enter absolute) trail).reverse.foldl move start =
        segs.foldl move (trail.reverse.foldl move start) := by
  induction segs generalizing trail with
  | nil => exact ⟨h, fun _ _ => rfl⟩
  | cons segment segs ih =>
    obtain ⟨hslash, hrest⟩ := List.forall_mem_cons.1 hsegs
    obtain ⟨hnext, hmove⟩ := h.enter hslash
    obtain ⟨htrail, hleads⟩ := ih hnext hrest
    refine ⟨htrail, fun start hstart => ?_⟩
    rw [List.foldl_cons, List.foldl_cons, hleads start hstart, hmove start hstart]

/-- Taking the segments of a trail again, from the outermost one on, gives the trail. -/
theorem foldl_reverse (h : IsTrail absolute trail) : trail.reverse.foldl (Path.enter absolute) [] = trail := by
  induction h with
  | climb climbs hclimbs =>
    rw [List.reverse_replicate]
    induction climbs with
    | zero => rfl
    | succ climbs ih =>
      cases absolute with
      | true => simp at hclimbs
      | false =>
        rw [List.replicate_succ', List.foldl_append, ih (by simp), List.foldl_cons, List.foldl_nil,
          enter_upward_replicate climbs (by simp), if_neg Bool.false_ne_true, List.replicate_succ']
  | name hname _ ih => rw [List.reverse_cons, List.foldl_append, ih, List.foldl_cons, List.foldl_nil, hname.enter_eq]

/-- From the outside, a trail starts with the upward segments. -/
theorem exists_reverse_eq (h : IsTrail absolute trail) : ∃ climbs names, (∀ n ∈ names, IsName n) ∧
    (absolute = true → climbs = 0) ∧ trail.reverse = List.replicate climbs upward ++ names := by
  induction h with
  | climb climbs hclimbs => exact ⟨climbs, [], by simp, hclimbs, by simp⟩
  | @name segment trail hname _ ih =>
    obtain ⟨climbs, names, hnames, hclimbs, heq⟩ := ih
    refine ⟨climbs, names ++ [segment], ?_, hclimbs, ?_⟩
    · intro n hn
      rcases List.mem_append.1 hn with hn | hn
      · exact hnames n hn
      · rw [List.mem_singleton.1 hn]
        exact hname
    · rw [List.reverse_cons, heq, List.append_assoc]

end IsTrail

/-! ### Normal forms -/

/-- A path that is written with names only, after upward segments if it is relative. -/
def IsNormal (path : List Char) : Prop :=
  ∃ climbs names, (∀ n ∈ names, IsName n) ∧ (isAbsolute path = true → climbs = 0) ∧
    path = written (isAbsolute path) (List.replicate climbs upward ++ names)

theorem isTrail_trailOf (path : List Char) : IsTrail (isAbsolute path) (trailOf path) :=
  (IsTrail.nil.foldl_enter fun _ => no_slash_of_mem_segments).1

theorem mem_reverse_trailOf (h : segment ∈ (trailOf path).reverse) : isIdle segment = false ∧ '/' ∉ segment :=
  (isTrail_trailOf path).mem (List.mem_reverse.1 h)

theorem isAbsolute_normalize (path : List Char) : isAbsolute (normalize path) = isAbsolute path := by
  rw [normalize_eq, isAbsolute_written (fun _ hs => (mem_reverse_trailOf hs).2) fun _ hs => (mem_reverse_trailOf hs).1]

theorem steps_normalize (path : List Char) : steps (normalize path) = (trailOf path).reverse := by
  rw [normalize_eq, steps_written (fun _ hs => (mem_reverse_trailOf hs).2) fun _ hs => (mem_reverse_trailOf hs).1]

theorem trailOf_eq (path : List Char) : trailOf path = (steps path).foldl (enter (isAbsolute path)) [] :=
  foldl_segments enter_of_isIdle path []

theorem trailOf_normalize (path : List Char) : trailOf (normalize path) = trailOf path := by
  rw [trailOf_eq, isAbsolute_normalize, steps_normalize, (isTrail_trailOf path).foldl_reverse]

/-- Normal forms are their own normal forms. -/
theorem normalize_normalize (path : List Char) : normalize (normalize path) = normalize path := by
  rw [normalize_eq, isAbsolute_normalize, trailOf_normalize, ← normalize_eq]

/-- Only the steps of a path and where it starts matter. -/
theorem normalize_congr (habsolute : isAbsolute path = isAbsolute more) (hsteps : steps path = steps more) :
    normalize path = normalize more := by
  rw [normalize_eq, normalize_eq, trailOf_eq, trailOf_eq, habsolute, hsteps]

/-- The normal form leads where the path leads. -/
theorem destination_normalize (start : List (List Char)) (path : List Char) :
    destination start (normalize path) = destination start path := by
  have hstart : isAbsolute path = true → (if isAbsolute path then [] else start) = [] := fun h => if_pos h
  rw [destination_eq, isAbsolute_normalize, steps_normalize]
  exact (IsTrail.nil.foldl_enter fun _ => no_slash_of_mem_segments).2 _ hstart

/-- The normal form of a path, and where it leads. -/
theorem exists_normalize_eq (path : List Char) : ∃ climbs names, (∀ n ∈ names, IsName n) ∧
    (isAbsolute path = true → climbs = 0) ∧
    normalize path = written (isAbsolute path) (List.replicate climbs upward ++ names) ∧
    ∀ start, destination start path = names.reverse ++ (if isAbsolute path then [] else start).drop climbs := by
  obtain ⟨climbs, names, hnames, hclimbs, htrail⟩ := (isTrail_trailOf path).exists_reverse_eq
  refine ⟨climbs, names, hnames, hclimbs, by rw [normalize_eq, htrail], fun start => ?_⟩
  rw [← destination_normalize, destination_eq, isAbsolute_normalize, steps_normalize, htrail, List.foldl_append,
    foldl_move_replicate, foldl_move_names hnames]

theorem isNormal_normalize (path : List Char) : IsNormal (normalize path) := by
  obtain ⟨climbs, names, hnames, hclimbs, heq, -⟩ := exists_normalize_eq path
  rw [IsNormal, isAbsolute_normalize]
  exact ⟨climbs, names, hnames, hclimbs, heq⟩

/-- Two paths have the same normal form just when they lead to the same place, wherever they start. -/
theorem normalize_eq_iff (path other : List Char) :
    normalize path = normalize other ↔
      isAbsolute path = isAbsolute other ∧ ∀ start, destination start path = destination start other := by
  constructor
  · intro h
    refine ⟨?_, fun start => ?_⟩
    · rw [← isAbsolute_normalize, h, isAbsolute_normalize]
    · rw [← destination_normalize, h, destination_normalize]
  · rintro ⟨habsolute, hleads⟩
    obtain ⟨climbs, names, -, hclimbs, heq, hdest⟩ := exists_normalize_eq path
    obtain ⟨climbs', names', -, hclimbs', heq', hdest'⟩ := exists_normalize_eq other
    -- from the top a path leads to its names, and from deep enough it can be told how far it goes up
    have hnames : names = names' := by
      have htop := hleads []
      simpa [hdest, hdest'] using htop
    have hup : climbs = climbs' := by
      cases hother : isAbsolute other with
      | true => rw [hclimbs (habsolute.trans hother), hclimbs' hother]
      | false =>
        have hdeep := congrArg List.length (hleads (List.replicate (climbs + climbs') []))
        simp only [hdest, hdest', habsolute, hother, hnames, if_neg Bool.false_ne_true, List.length_append,
          List.length_drop, List.length_replicate] at hdeep
        omega
    rw [heq, heq', habsolute, hnames, hup]

/-! ### Paths below others -/

theorem steps_join (base : List Char) (h : isAbsolute path = false) :
    steps (join base path) = steps base ++ steps path := by
  by_cases hbase : base = []
  · subst hbase
    simp [join, h]
  · obtain ⟨above, hjoin, rfl | rfl⟩ := exists_join_eq hbase h
    · rw [hjoin, steps_append]
    · rw [hjoin, steps_append, steps_append, steps_nil, List.append_nil]

theorem trailOf_join (base : List Char) (h : isAbsolute path = false) :
    trailOf (join base path) = (steps path).foldl (enter (isAbsolute base)) (trailOf base) := by
  rw [trailOf_eq, isAbsolute_join base h, steps_join base h, List.foldl_append, ← trailOf_eq]

/-- The base may as well be in normal form. -/
theorem normalize_join_normalize (base : List Char) (h : isAbsolute path = false) :
    normalize (join (normalize base) path) = normalize (join base path) := by
  rw [normalize_eq (join _ path), normalize_eq (join _ path), isAbsolute_join _ h, isAbsolute_join _ h,
    trailOf_join _ h, trailOf_join _ h, isAbsolute_normalize, trailOf_normalize]

/-- A path below a path below a base. -/
theorem normalize_join_join (base : List Char) (h : isAbsolute path = false) (hne : path ≠ [])
    (hmore : isAbsolute more = false) :
    normalize (join (normalize (join base path)) more) = normalize (join base (path ++ '/' :: more)) := by
  have hboth : isAbsolute (path ++ '/' :: more) = false := by rw [isAbsolute_append hne, h]
  rw [normalize_join_normalize _ hmore]
  apply normalize_congr
  · rw [isAbsolute_join _ hmore, isAbsolute_join _ h, isAbsolute_join _ hboth]
  · rw [steps_join _ hmore, steps_join _ h, steps_join _ hboth, steps_append, List.append_assoc]

end NestedStyles.Path
