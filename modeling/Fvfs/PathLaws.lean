import Fvfs.Path

/-! The laws of `FvfsPath`: the constructor resolves a text to its components, joining in two
stages is joining at once, and the other operations are those of the component list. -/
namespace Fvfs.FvfsPath

/-- The text of a path without the slash that ends the root's. -/
def stem (d : FvfsPath) : Text := if d.text = ['/'] then [] else d.text

/-- The components of a text, resolved one after the other. -/
def resolveAll (components : List Text) (s : Text) : Except FvfsError (List Text) :=
  (s.splitOn '/').foldlM resolve components

theorem resolveAll_append_slash (components : List Text) (s t : Text) :
    resolveAll components (s ++ '/' :: t) =
      resolveAll components s >>= fun resolved => resolveAll resolved t := by
  unfold resolveAll
  rw [List.splitOn_append_cons_self, List.foldlM_append]

theorem resolveAll_nil (components : List Text) : resolveAll components [] = .ok components := by
  simp [resolveAll, resolve]

/-- A leading slash makes no difference. -/
theorem normalize_eq {s : Text} (some_text : s ≠ []) :
    normalize s = (resolveAll [] s).map render := by
  unfold normalize
  rw [if_neg some_text]
  split
  · rfl
  · have slashed := resolveAll_append_slash [] [] s
    rw [resolveAll_nil, List.nil_append] at slashed
    change (resolveAll [] ('/' :: s)).map render = _
    rw [slashed]
    rfl

theorem new_eq {s : Text} (some_text : s ≠ []) :
    new s = (resolveAll [] s).map fun components => ⟨render components⟩ := by
  rw [new, normalize_eq some_text]
  cases resolveAll [] s <;> rfl

/-- Joining goes on from the components of the path. -/
theorem join_eq (p : FvfsPath) (segment : Text) :
    p.join segment = (resolveAll [] p.stem >>= fun components => resolveAll components segment).map
      fun components => ⟨render components⟩ := by
  have text : p.join segment = new (p.stem ++ '/' :: segment) := by
    unfold join stem
    split <;> rfl
  rw [text, new_eq (by simp), resolveAll_append_slash]

theorem render_ne_root {components : List Text} (valid : ∀ part ∈ components, Segment part)
    (some_part : components ≠ []) : render components ≠ ['/'] := by
  intro top
  have parts := splitOn_render valid some_part
  rw [top] at parts
  obtain ⟨part, rest, rfl⟩ := List.exists_cons_of_ne_nil some_part
  have empty : [[], []] = [] :: part :: rest := parts
  have nothing : part = [] := by simpa using (List.cons.inj (List.cons.inj empty).2).1.symm
  exact (valid part (by simp)).nonempty nothing

/-- A canonical path resolves to its own components. -/
theorem resolveAll_stem {components : List Text} (valid : ∀ part ∈ components, Segment part) :
    resolveAll [] (⟨render components⟩ : FvfsPath).stem = .ok components := by
  by_cases top : components = []
  · subst top
    exact resolveAll_nil []
  · rw [stem, if_neg (render_ne_root valid top), resolveAll, splitOn_render valid top,
      List.foldlM_cons]
    exact foldlM_resolve_segments valid []

theorem resolveAll_valid {components result : List Text} {s : Text}
    (valid : ∀ part ∈ components, Segment part) (resolved : resolveAll components s = .ok result) :
    ∀ part ∈ result, Segment part :=
  foldlM_resolve_valid valid (fun _ => mem_splitOn_no_sep) resolved

/-- Null bytes stop the resolution, and nothing else does. -/
theorem clean_of_foldlM_resolve {parts components result : List Text}
    (resolved : parts.foldlM resolve components = .ok result) : ∀ part ∈ parts, nul ∉ part := by
  induction parts generalizing components with
  | nil => simp
  | cons part parts ih =>
    rw [List.foldlM_cons] at resolved
    cases first : resolve components part with
    | error e =>
      rw [first] at resolved
      contradiction
    | ok middle =>
      rw [first] at resolved
      intro other member
      rcases List.mem_cons.mp member with rfl | later
      · unfold resolve at first
        split at first
        next skip => rcases skip with rfl | rfl <;> decide
        next =>
          split at first
          next dots =>
            subst dots
            decide
          next =>
            split at first
            · contradiction
            · assumption
      · exact ih resolved other later

theorem mem_of_mem_intercalate {sep c : Char} {parts : List Text}
    (member : c ∈ [sep].intercalate parts) : c = sep ∨ ∃ part ∈ parts, c ∈ part := by
  induction parts with
  | nil => simp at member
  | cons part parts ih =>
    cases parts with
    | nil => exact Or.inr ⟨part, by simp, by simpa using member⟩
    | cons next parts =>
      rw [List.intercalate_cons_cons] at member
      rcases List.mem_append.mp member with here | later
      · rcases List.mem_append.mp here with inside | slash
        · exact Or.inr ⟨part, by simp, inside⟩
        · exact Or.inl (by simpa using slash)
      · rcases ih later with same | ⟨other, listed, inside⟩
        · exact Or.inl same
        · exact Or.inr ⟨other, List.mem_cons_of_mem part listed, inside⟩

/-- The constructor refuses the empty text and texts with null bytes. -/
theorem new_error_iff (s : Text) : (∃ e, new s = .error e) ↔ s = [] ∨ nul ∈ s := by
  by_cases empty : s = []
  · subst empty
    exact iff_of_true ⟨_, rfl⟩ (Or.inl rfl)
  · rw [new_eq empty]
    simp only [empty, false_or]
    cases resolved : resolveAll [] s with
    | ok components =>
      refine iff_of_false nofun fun inside => ?_
      have whole : ['/'].intercalate (s.splitOn '/') = s := List.intercalate_splitOn '/'
      rw [← whole] at inside
      rcases mem_of_mem_intercalate inside with slash | ⟨part, listed, inside⟩
      · exact absurd slash (by decide)
      · exact clean_of_foldlM_resolve resolved part listed inside
    | error e =>
      refine iff_of_true ⟨e, rfl⟩ ?_
      by_contra clean
      obtain ⟨components, fine⟩ := foldlM_resolve_clean
        (fun part listed inside => clean (subset_of_mem_splitOn listed inside)) []
      rw [resolveAll, fine] at resolved
      cases resolved

/-- Joining a text in two stages is joining it at once. -/
theorem join_append_slash (p : FvfsPath) (a b : Text) :
    p.join (a ++ '/' :: b) = (p.join a).bind fun q => q.join b := by
  rw [join_eq, join_eq]
  cases start : resolveAll [] p.stem with
  | error e => rfl
  | ok components =>
    change (resolveAll components (a ++ '/' :: b)).map _ =
      ((resolveAll components a).map _).bind _
    rw [resolveAll_append_slash]
    cases middle : resolveAll components a with
    | error e => rfl
    | ok resolved =>
      have valid := resolveAll_valid (resolveAll_valid (by simp) start) middle
      change (resolveAll resolved b).map _ = (⟨render resolved⟩ : FvfsPath).join b
      rw [join_eq, resolveAll_stem valid]
      rfl

/-- The constructor is a canonicaliser, and joining is an action of texts on paths. -/
theorem canonicaliser :
    (∀ s, (∃ e, new s = .error e) ↔ s = [] ∨ nul ∈ s) ∧
    (∀ s p, new s = .ok p → p.Canonical ∧ new p.text = .ok p) ∧
    (∀ p : FvfsPath, p.Canonical → new p.text = .ok p) ∧
    ∀ (p : FvfsPath) (a b : Text), p.join (a ++ '/' :: b) = (p.join a).bind fun q => q.join b :=
  ⟨new_error_iff, fun _ _ built => ⟨new_canonical built, new_of_canonical (new_canonical built)⟩,
    fun _ => new_of_canonical, join_append_slash⟩

end Fvfs.FvfsPath
