import NestedStyles.Source.Memory
import NestedStyles.Proofs.Path.Segments

/-!
# Names of sources

The candidates for an identifier differ in their file names only. The candidates for one of them are found among them in
one piece, and the candidate itself is not before that piece (`exists_candidates_eq`). So whoever misses an identifier
misses all its candidates, and the candidate that is found first is found again under its own name. A chain of stores
therefore finds the same source again under the name it found it by (`find_uri`).
-/

namespace NestedStyles

open NestedStyles.Path

/-! ### Candidates -/

namespace Source

variable {lead file full under : List Char} {identifier name : String}

/-- An underscore is put before a file name that does not start with one. -/
theorem underscored?_append (hlead : IsLead lead) (hfile : '/' ∉ file) :
    underscored? (lead ++ file) = if file.head? = some '_' then none else some (lead ++ '_' :: file) := by
  have htake : (lead ++ file).take ((lead ++ file).length - file.length) = lead := by
    rw [List.length_append, Nat.add_sub_cancel, List.take_left]
  rw [underscored?, hlead.takeWhile_reverse hfile, List.reverse_reverse]
  simp only [htake]

/-- With the underscore there is no other to be put, and the ending is what it was. -/
theorem underscored?_eq_some (h : underscored? full = some under) :
    underscored? under = none ∧ (extension <:+ full → extension <:+ under) := by
  obtain ⟨lead, file, rfl, hlead, hfile⟩ := exists_lead full
  have hfile' : '/' ∉ '_' :: file := List.not_mem_cons_of_ne_of_not_mem (by decide) hfile
  rw [underscored?_append hlead hfile] at h
  split at h
  · cases h
  · obtain rfl := Option.some.inj h
    refine ⟨?_, fun hsuffix => ?_⟩
    · rw [underscored?_append hlead hfile', List.head?_cons, if_pos rfl]
    · have hending := hlead.suffix_of_append (by decide) hsuffix
      exact (hending.trans (List.suffix_cons '_' file)).trans (List.suffix_append lead _)

theorem candidates_of_complete (h : extension <:+ name.toList) :
    candidates name = name :: ((underscored? name.toList).map String.ofList).toList := by
  simp [candidates, List.isSuffixOf_iff_suffix.2 h, Option.toList_map]

/-- Without the extension, the candidates are those with it, and the identifier as it is written. -/
theorem candidates_of_incomplete (h : ¬ extension <:+ name.toList) :
    candidates name = candidates (name ++ ".scss") ++ [name] := by
  have hfull : (name ++ ".scss").toList = name.toList ++ extension := by simp [extension]
  have hcomplete : extension <:+ (name ++ ".scss").toList := hfull ▸ List.suffix_append _ _
  have hincomplete : extension.isSuffixOf name.toList = false := by
    rwa [← Bool.not_eq_true, List.isSuffixOf_iff_suffix]
  rw [candidates_of_complete hcomplete, hfull]
  simp [candidates, hincomplete, Option.toList_map, ← hfull]

theorem self_mem_candidates (identifier : String) : identifier ∈ candidates identifier := by
  by_cases hcomplete : extension <:+ identifier.toList
  · simp [candidates_of_complete hcomplete]
  · simp [candidates_of_incomplete hcomplete]

/-- The candidates for a candidate stand together among the candidates, and it is not before them. -/
theorem exists_candidates_eq (h : name ∈ candidates identifier) :
    ∃ before after, candidates identifier = before ++ candidates name ++ after ∧ name ∉ before := by
  -- for an identifier with the extension there is nothing after them
  have hcomplete : ∀ {full : String}, extension <:+ full.toList → name ∈ candidates full →
      ∃ before, candidates full = before ++ candidates name ∧ name ∉ before := by
    intro full hfull hname
    by_cases hself : name = full
    · exact ⟨[], by rw [hself]; rfl, List.not_mem_nil⟩
    · rw [candidates_of_complete hfull, List.mem_cons, Option.mem_toList, Option.map_eq_some_iff] at hname
      obtain ⟨under, hunder, rfl⟩ := hname.resolve_left hself
      obtain ⟨hnone, hsuffix⟩ := underscored?_eq_some hunder
      have hunder' : extension <:+ (String.ofList under).toList := by
        rw [String.toList_ofList]
        exact hsuffix hfull
      refine ⟨[full], ?_, by simpa using hself⟩
      rw [candidates_of_complete hfull, candidates_of_complete hunder', String.toList_ofList, hnone, hunder]
      rfl
  by_cases hidentifier : extension <:+ identifier.toList
  · obtain ⟨before, heq, hnot⟩ := hcomplete hidentifier h
    exact ⟨before, [], by rw [heq, List.append_nil], hnot⟩
  · by_cases hself : name = identifier
    · exact ⟨[], [], by rw [hself]; simp, List.not_mem_nil⟩
    · have hfull : extension <:+ (identifier ++ ".scss").toList := by simp [extension]
      rw [candidates_of_incomplete hidentifier, List.mem_append, List.mem_singleton] at h
      obtain ⟨before, heq, hnot⟩ := hcomplete hfull (h.resolve_right hself)
      exact ⟨before, [identifier], by rw [candidates_of_incomplete hidentifier, heq], hnot⟩

end Source

/-! ### Stores -/

namespace MemoryStore

variable {store : MemoryStore} {names : List String} {identifier name : String} {source : Source}

/-- What is in a store under exactly this name. -/
def stored? (store : MemoryStore) (name : String) : Option Source :=
  (store.get? name).map fun contents => { uri := name, contents }

theorem find?_eq (store : MemoryStore) (identifier : String) :
    store.find? identifier = (Source.candidates identifier).findSome? store.stored? := rfl

theorem uri_of_stored? (h : store.stored? name = some source) : source.uri = name := by
  obtain ⟨contents, -, rfl⟩ := Option.map_eq_some_iff.1 h
  rfl

theorem stored?_of_findSome? (h : names.findSome? store.stored? = some source) :
    source.uri ∈ names ∧ store.stored? source.uri = some source := by
  obtain ⟨name, hname, hstored⟩ := List.exists_of_findSome?_eq_some h
  rw [uri_of_stored? hstored]
  exact ⟨hname, hstored⟩

/-- A store that misses an identifier misses its candidates. -/
theorem find?_eq_none (h : store.find? identifier = none) (hname : name ∈ Source.candidates identifier) :
    store.find? name = none := by
  obtain ⟨before, after, heq, -⟩ := Source.exists_candidates_eq hname
  rw [find?_eq, List.findSome?_eq_none_iff] at h ⊢
  intro other hother
  exact h other (by simp [heq, hother])

/-- What a store finds it finds again under its name. -/
theorem find?_uri (h : store.find? identifier = some source) : store.find? source.uri = some source := by
  rw [find?_eq] at h
  obtain ⟨hmem, hstored⟩ := stored?_of_findSome? h
  obtain ⟨before, after, heq, hnot⟩ := Source.exists_candidates_eq hmem
  -- it is not found before the candidates for its name, and it is one of these
  have hbefore : before.findSome? store.stored? = none := by
    cases hearly : before.findSome? store.stored? with
    | none => rfl
    | some early =>
      rw [heq, List.append_assoc, List.findSome?_append, hearly] at h
      obtain rfl : early = source := by simpa using h
      exact absurd (stored?_of_findSome? hearly).1 hnot
  have hfound : ((Source.candidates source.uri).findSome? store.stored?).isSome := by
    rw [List.findSome?_isSome_iff]
    exact ⟨source.uri, Source.self_mem_candidates source.uri, by simp [hstored]⟩
  obtain ⟨found, hfound⟩ := Option.isSome_iff_exists.1 hfound
  rw [heq, List.append_assoc, List.findSome?_append, List.findSome?_append, hbefore, hfound] at h
  rw [find?_eq, hfound]
  simpa using h

end MemoryStore

/-! ### Chains of stores -/

namespace Chain

variable {stores : List MemoryStore} {identifier : String} {source : Source}

/-- A chain of stores asks one after the other. -/
theorem find_map_provider (stores : List MemoryStore) (identifier : String) :
    (Chain.find identifier (stores.map MemoryStore.provider)).1 = stores.findSome? (·.find? identifier) := by
  induction stores with
  | nil => rfl
  | cons store stores ih =>
    rw [List.map_cons, Chain.find, List.findSome?_cons, ← ih]
    simp only [MemoryStore.provider]
    cases store.find? identifier <;> rfl

theorem findSome?_uri (h : stores.findSome? (·.find? identifier) = some source) :
    stores.findSome? (·.find? source.uri) = some source := by
  obtain ⟨missed, store, others, rfl, hfind, hmissed⟩ := List.findSome?_eq_some_iff.1 h
  have hcandidate : source.uri ∈ Source.candidates identifier := (MemoryStore.stored?_of_findSome? hfind).1
  refine List.findSome?_eq_some_iff.2 ⟨missed, store, others, rfl, MemoryStore.find?_uri hfind, ?_⟩
  intro earlier hearlier
  exact MemoryStore.find?_eq_none (hmissed earlier hearlier) hcandidate

/-- What a chain of stores finds for an identifier it finds again under the name it was found by, whatever is in the
stores. So the names of two sources that are found tell whether they are the same. -/
theorem find_uri (stores : List MemoryStore) :
    (∀ identifier source, (Chain.find identifier (stores.map MemoryStore.provider)).1 = some source →
      (Chain.find source.uri (stores.map MemoryStore.provider)).1 = some source) ∧
    ∀ identifier identifier' source source',
      (Chain.find identifier (stores.map MemoryStore.provider)).1 = some source →
      (Chain.find identifier' (stores.map MemoryStore.provider)).1 = some source' →
      (source = source' ↔ source.uri = source'.uri) := by
  simp only [find_map_provider]
  refine ⟨fun identifier source hfind => findSome?_uri hfind, ?_⟩
  intro identifier identifier' source source' hfind hfind'
  refine ⟨congrArg Source.uri, fun huri => ?_⟩
  have hagain := findSome?_uri hfind
  rw [huri, findSome?_uri hfind'] at hagain
  exact (Option.some.inj hagain).symm

/-- Two stores from which a text was taken out again. -/
def shelves : List MemoryStore :=
  [((MemoryStore.add {} "kit/tint.scss" "a").add "tint" "b").remove "kit/tint.scss",
    ((MemoryStore.add {} "kit/_tint.scss" "c").add "tint.css" "d").add "_tint.scss" "e"]

/-- Three spellings lead to one source, which is found by its own name as well. A name without the extension is found
too, and comes before what the other store has for it. -/
theorem find_uri_shelves :
    (["kit/tint", "kit/tint.scss", "kit/_tint"].map fun identifier =>
        (Chain.find identifier (shelves.map MemoryStore.provider)).1) =
      List.replicate 3 (some ⟨"kit/_tint.scss", "c"⟩) ∧
    (Chain.find "kit/_tint.scss" (shelves.map MemoryStore.provider)).1 = some ⟨"kit/_tint.scss", "c"⟩ ∧
    (Chain.find "tint" (shelves.map MemoryStore.provider)).1 = some ⟨"tint", "b"⟩ := by
  have hfind : (Chain.find "kit/tint" (shelves.map MemoryStore.provider)).1 = some ⟨"kit/_tint.scss", "c"⟩ := by
    decide +kernel
  have hagain := (find_uri shelves).1 "kit/tint" ⟨"kit/_tint.scss", "c"⟩ hfind
  refine ⟨?_, hagain, ?_⟩
  · decide +kernel
  · decide +kernel

end Chain

end NestedStyles
