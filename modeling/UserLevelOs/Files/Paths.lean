import UserLevelOs.Files.Directory

/-!
# Components of a path

What `strtok` makes of a path, and how `dirname` and `basename` split it: the components of
the parent, and the last component.

## Main statements

* `strtokAll_slash` — the components around a slash.
* `strtokAll_dirname` — an absolute path but for its last component.
-/

namespace UserLevelOs.Files

open UserLevelOs.Lib

variable {path cur xs ys : List UInt8}

/-- The bytes of one component. -/
def Component (name : List UInt8) : Prop := SLASH ∉ name ∧ name ≠ []

/-! ## `strtok` -/

theorem strtokFrom_append_slash (cur xs ys : List UInt8) :
    strtokFrom cur (xs ++ SLASH :: ys) = strtokFrom cur xs ++ strtokFrom [] ys := by
  induction xs generalizing cur with
  | nil =>
    by_cases hcur : cur = []
    · simp [strtokFrom, hcur]
    · simp [strtokFrom, hcur]
  | cons c xs ih =>
    rw [List.cons_append, strtokFrom, strtokFrom]
    by_cases hc : c = SLASH
    · by_cases hcur : cur = []
      · rw [if_pos hc, if_pos hc, if_pos hcur, if_pos hcur, ih]
      · rw [if_pos hc, if_pos hc, if_neg hcur, if_neg hcur, ih, List.cons_append]
    · rw [if_neg hc, if_neg hc, ih]

theorem strtokAll_slash (xs ys : List UInt8) :
    strtokAll (xs ++ SLASH :: ys) = strtokAll xs ++ strtokAll ys :=
  strtokFrom_append_slash [] xs ys

theorem strtokFrom_component (h : SLASH ∉ xs) (hne : cur ++ xs ≠ []) :
    strtokFrom cur xs = [cur ++ xs] := by
  induction xs generalizing cur with
  | nil =>
    rw [List.append_nil] at hne ⊢
    rw [strtokFrom, if_neg hne]
  | cons c xs ih =>
    have hc : c ≠ SLASH := fun heq => h (heq ▸ List.mem_cons_self)
    have hxs : SLASH ∉ xs := fun hmem => h (List.mem_cons_of_mem c hmem)
    rw [strtokFrom, if_neg hc, ih hxs (by simp), List.append_assoc, List.singleton_append]

theorem strtokAll_component (h : Component xs) : strtokAll xs = [xs] :=
  strtokFrom_component h.1 h.2

/-- Slashes at the end do not matter. -/
theorem strtokAll_append_slashes {l : List UInt8} (h : ∀ c ∈ ys, c = SLASH) :
    strtokAll (l ++ ys) = strtokAll l := by
  induction ys generalizing l with
  | nil => rw [List.append_nil]
  | cons c ys ih =>
    have hys : ∀ c ∈ ys, c = SLASH := fun b hb => h b (List.mem_cons_of_mem c hb)
    have hnil : strtokAll ys = strtokAll ([] : List UInt8) := ih (l := []) hys
    rw [h c List.mem_cons_self, strtokAll_slash, hnil]
    exact List.append_nil _

theorem mem_strtokFrom {name : List UInt8} (hcur : SLASH ∉ cur) (h : name ∈ strtokFrom cur xs) :
    Component name ∧ ∀ b ∈ name, b ∈ cur ∨ b ∈ xs := by
  induction xs generalizing cur with
  | nil =>
    rw [strtokFrom] at h
    split at h
    · cases h
    · next hne =>
      rw [List.mem_singleton.mp h]
      exact ⟨⟨hcur, hne⟩, fun b hb => Or.inl hb⟩
  | cons c xs ih =>
    rw [strtokFrom] at h
    have hrest (hmem : name ∈ strtokFrom [] xs) :
        Component name ∧ ∀ b ∈ name, b ∈ cur ∨ b ∈ c :: xs := by
      obtain ⟨hcomp, hsub⟩ := ih List.not_mem_nil hmem
      refine ⟨hcomp, fun b hb => Or.inr ?_⟩
      exact List.mem_cons_of_mem c ((hsub b hb).resolve_left List.not_mem_nil)
    by_cases hc : c = SLASH
    · rw [if_pos hc] at h
      by_cases hnil : cur = []
      · rw [if_pos hnil] at h
        exact hrest h
      · rw [if_neg hnil] at h
        rcases List.mem_cons.mp h with rfl | h
        · exact ⟨⟨hcur, hnil⟩, fun b hb => Or.inl hb⟩
        · exact hrest h
    · rw [if_neg hc] at h
      have hcur' : SLASH ∉ cur ++ [c] := by
        rw [List.mem_append, List.mem_singleton]
        rintro (hmem | heq)
        · exact hcur hmem
        · exact hc heq.symm
      obtain ⟨hcomp, hsub⟩ := ih hcur' h
      refine ⟨hcomp, fun b hb => ?_⟩
      rcases hsub b hb with hmem | hmem
      · rcases List.mem_append.mp hmem with hmem | hmem
        · exact Or.inl hmem
        · exact Or.inr (List.mem_singleton.mp hmem ▸ List.mem_cons_self)
      · exact Or.inr (List.mem_cons_of_mem c hmem)

theorem mem_strtokAll {name : List UInt8} (h : name ∈ strtokAll path) :
    Component name ∧ ∀ b ∈ name, b ∈ path := by
  obtain ⟨hcomp, hsub⟩ := mem_strtokFrom List.not_mem_nil h
  exact ⟨hcomp, fun b hb => (hsub b hb).resolve_left List.not_mem_nil⟩

/-- A component of a C string is one. -/
theorem nul_notMem_of_mem {name : List UInt8} (hpath : 0 ∉ path) (h : name ∈ strtokAll path) :
    0 ∉ name := fun h0 => hpath ((mem_strtokAll h).2 0 h0)

/-! ## `dirname` and `basename` -/

theorem mem_of_mem_rdropWhile (p : UInt8 → Bool) (l : List UInt8) : ∀ b ∈ l.rdropWhile p, b ∈ l :=
  fun _ hb => (List.rdropWhile_prefix p l).subset hb

/-- A path without the slashes at its end. -/
theorem strtokAll_rdropWhile (path : List UInt8) :
    strtokAll (path.rdropWhile (· = SLASH)) = strtokAll path := by
  conv_rhs => rw [← List.rdropWhile_append_rtakeWhile (p := (· = SLASH)) (l := path)]
  refine (strtokAll_append_slashes fun c hc => ?_).symm
  simpa using List.mem_rtakeWhile_imp hc

theorem nul_notMem_dirname (h : 0 ∉ path) : 0 ∉ dirname path := by
  have hslash : (0 : UInt8) ∉ [SLASH] := by decide
  have hroot (l : List UInt8) (hl : 0 ∉ l) : 0 ∉ if l.length = 2 then l else [SLASH] := by
    split
    · exact hl
    · exact hslash
  have htrim : 0 ∉ path.rdropWhile (· = SLASH) := fun h0 => h (mem_of_mem_rdropWhile _ _ 0 h0)
  have hparent : 0 ∉ (path.rdropWhile (· = SLASH)).rdropWhile (· ≠ SLASH) :=
    fun h0 => htrim (mem_of_mem_rdropWhile _ _ 0 h0)
  rw [dirname]
  split
  · split
    · exact h
    · exact hroot _ h
  · dsimp only
    split
    · exact h
    · split
      · exact hroot _ hparent
      · exact fun h0 => hparent (mem_of_mem_rdropWhile _ _ 0 h0)

theorem nul_notMem_basename (h : 0 ∉ path) : 0 ∉ basename path := by
  rw [basename]
  split
  · decide
  · split
    · decide
    · intro h0
      have hmem : (0 : UInt8) ∈ path.rdropWhile (· = SLASH) := (List.rtakeWhile_suffix _ _).subset h0
      exact h (mem_of_mem_rdropWhile _ _ 0 hmem)

/-- Splitting a path with something before its last component splits its components. -/
theorem strtokAll_dirname_of_parent (hne : strtokAll path ≠ [])
    (hpre : (path.rdropWhile (· = SLASH)).rdropWhile (· ≠ SLASH) ≠ []) :
    strtokAll (dirname path) ++ [basename path] = strtokAll path := by
  have hnil : path ≠ [] := by
    rintro rfl
    exact hne rfl
  obtain ⟨trimmed, htrimmed⟩ : ∃ t, t = path.rdropWhile (· = SLASH) := ⟨_, rfl⟩
  have htok : strtokAll trimmed = strtokAll path := htrimmed ▸ strtokAll_rdropWhile path
  have htne : trimmed ≠ [] := by
    rintro rfl
    exact hne htok.symm
  -- the last component, behind the last slash
  obtain ⟨parent, hparent⟩ : ∃ t, t = trimmed.rdropWhile (· ≠ SLASH) := ⟨_, rfl⟩
  obtain ⟨last, hlast⟩ : ∃ t, t = trimmed.rtakeWhile (· ≠ SLASH) := ⟨_, rfl⟩
  have hsplit : parent ++ last = trimmed := by
    rw [hparent, hlast, List.rdropWhile_append_rtakeWhile]
  have hlastSlash : SLASH ∉ last := by
    intro hmem
    rw [hlast] at hmem
    simpa using List.mem_rtakeWhile_imp hmem
  have hlastNe : last ≠ [] := by
    intro heq
    have hend := List.rdropWhile_last_not (· = SLASH) path (by rwa [← htrimmed])
    rw [heq, List.append_nil] at hsplit
    have hpar := List.rdropWhile_last_not (· ≠ SLASH) trimmed (by rwa [← hparent, hsplit])
    simp only [← hparent, hsplit, ← htrimmed, decide_eq_true_eq, not_not] at hend hpar
    exact hend hpar
  have hcomp : Component last := ⟨hlastSlash, hlastNe⟩
  have hbase : basename path = last := by
    rw [basename, if_neg hnil, ← htrimmed, if_neg htne, hlast]
  have hparentNe : parent ≠ [] := by rwa [hparent, htrimmed]
  -- ending with a slash
  obtain ⟨front, hfront⟩ : ∃ front, parent = front ++ [SLASH] := by
    have hpar := List.rdropWhile_last_not (· ≠ SLASH) trimmed (by rwa [← hparent])
    simp only [← hparent, decide_eq_true_eq, not_not] at hpar
    exact ⟨parent.dropLast, by rw [← hpar, List.dropLast_append_getLast]⟩
  have hpath : strtokAll path = strtokAll parent ++ [last] := by
    rw [← htok, ← hsplit, hfront, List.append_assoc, List.singleton_append, strtokAll_slash,
      strtokAll_component hcomp]
    congr 1
    exact (strtokAll_append_slashes (by simp)).symm
  have hroot (l : List UInt8) (hl : ∀ c ∈ l, c = SLASH) :
      strtokAll (if l.length = 2 then l else [SLASH]) = [] := by
    split
    · exact strtokAll_append_slashes (l := []) hl
    · rfl
  have hdir : strtokAll (dirname path) = strtokAll parent := by
    rw [dirname]
    simp only [← htrimmed, if_neg htne, ← hparent, if_neg hparentNe]
    split
    · next hcut =>
      have hall : ∀ c ∈ parent, c = SLASH := by
        have hsame := List.rdropWhile_append_rtakeWhile (p := (· = SLASH)) (l := parent)
        rw [hcut, List.nil_append] at hsame
        intro c hc
        rw [← hsame] at hc
        simpa using List.mem_rtakeWhile_imp hc
      rw [hroot parent hall]
      exact (strtokAll_append_slashes (l := []) hall).symm
    · exact strtokAll_rdropWhile parent
  rw [hdir, hbase, hpath]

/-- Splitting an absolute path splits its components. -/
theorem strtokAll_dirname (habs : path.head? = some SLASH) (hne : strtokAll path ≠ []) :
    strtokAll (dirname path) ++ [basename path] = strtokAll path := by
  refine strtokAll_dirname_of_parent hne fun hparent => ?_
  -- the slash in front stands before the last component
  have htok := strtokAll_rdropWhile path
  have hsame := List.rdropWhile_append_rtakeWhile (p := (· ≠ SLASH))
    (l := path.rdropWhile (· = SLASH))
  rw [hparent, List.nil_append] at hsame
  cases htrim : path.rdropWhile (· = SLASH) with
  | nil =>
    rw [htrim] at htok
    exact hne htok.symm
  | cons c cs =>
    obtain ⟨rest, hrest⟩ := List.rdropWhile_prefix (· = SLASH) path
    rw [← hrest, htrim, List.cons_append, List.head?_cons, Option.some.injEq] at habs
    have hmem : c ∈ (path.rdropWhile (· = SLASH)).rtakeWhile (· ≠ SLASH) := by
      rw [hsame, htrim]
      exact List.mem_cons_self
    rw [habs] at hmem
    simpa using List.mem_rtakeWhile_imp hmem

/-- A path of one component without a slash before it is its own `dirname`. -/
theorem strtokAll_dirname_or (hne : strtokAll path ≠ []) :
    strtokAll (dirname path) ++ [basename path] = strtokAll path ∨ dirname path = path := by
  by_cases hparent : (path.rdropWhile (· = SLASH)).rdropWhile (· ≠ SLASH) = []
  · refine Or.inr ?_
    have htrim : path.rdropWhile (· = SLASH) ≠ [] := by
      intro htrim
      have htok := strtokAll_rdropWhile path
      rw [htrim] at htok
      exact hne htok.symm
    rw [dirname, if_neg htrim]
    exact if_pos hparent
  · exact Or.inl (strtokAll_dirname_of_parent hne hparent)

end UserLevelOs.Files
