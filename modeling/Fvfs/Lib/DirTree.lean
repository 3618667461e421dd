import Mathlib.Data.List.Basic
import Mathlib.Data.List.Infix
import Mathlib.Logic.Function.Basic

/-! A file system as directories and files by their places, with the calls that make
directories, open a file for writing, and remove one. -/
namespace Lib

open Function (update)

inductive Entry (β : Type) where
  | dir
  | file (content : β)
  deriving DecidableEq

/-- Everything lies in a directory. -/
structure DirTree (ν β : Type) where
  entry : List ν → Option (Entry β)
  inside : ∀ place name, entry (place ++ [name]) ≠ none → entry place = some .dir

namespace DirTree

variable {ν β : Type}

def empty : DirTree ν β := ⟨fun _ => none, fun _ _ used => absurd rfl used⟩

def content (t : DirTree ν β) (place : List ν) : Option β :=
  match t.entry place with
  | some (.file content) => some content
  | _ => none

/-- A file where the directories go. -/
def Blocked (t : DirTree ν β) (place : List ν) : Prop :=
  ∃ above, above <+: place ∧ (t.content above).isSome

theorem content_eq_some_iff {t : DirTree ν β} {place : List ν} {x : β} :
    t.content place = some x ↔ t.entry place = some (.file x) := by
  unfold content
  split
  next found here => simp [here]
  next other => simp only [reduceCtorEq, false_iff]; exact other x

theorem entry_of_clear {t : DirTree ν β} {place above : List ν} (clear : ¬t.Blocked place)
    (begins : above <+: place) : t.entry above = none ∨ t.entry above = some .dir := by
  cases found : t.entry above with
  | none => exact Or.inl rfl
  | some e =>
    cases e with
    | dir => exact Or.inr rfl
    | file x =>
      refine absurd ⟨above, begins, ?_⟩ clear
      rw [content_eq_some_iff.mpr found]
      rfl

variable [DecidableEq ν]

instance (t : DirTree ν β) (place : List ν) : Decidable (t.Blocked place) :=
  decidable_of_iff (∃ above ∈ place.inits, (t.content above).isSome)
    ⟨fun ⟨above, member, file⟩ => ⟨above, (List.mem_inits above place).mp member, file⟩,
    fun ⟨above, begins, file⟩ => ⟨above, (List.mem_inits above place).mpr begins, file⟩⟩

/-- The directory and all above it, made where nothing is. -/
def mkdirs (t : DirTree ν β) (place : List ν) (clear : ¬t.Blocked place) : DirTree ν β where
  entry q := if q <+: place ∧ t.entry q = none then some .dir else t.entry q
  inside q name used := by
    by_cases made : q ++ [name] <+: place
    · have begins : q <+: place := (List.prefix_append q [name]).trans made
      rcases entry_of_clear clear begins with none_here | dir
      · simp [begins, none_here]
      · simp [dir]
    · simp only [made, false_and, if_false] at used
      have dir := t.inside q name used
      simp [dir]

/-- A file in a directory, new or in the place of another file. -/
def setFile (t : DirTree ν β) (place : List ν) (name : ν) (dir : t.entry place = some .dir)
    (plain : t.entry (place ++ [name]) ≠ some .dir) (x : β) : DirTree ν β where
  entry := update t.entry (place ++ [name]) (some (.file x))
  inside q other used := by
    by_cases own : q ++ [other] = place ++ [name]
    · obtain ⟨rfl, -⟩ := List.append_inj' own rfl
      rw [Function.update_of_ne (by simp)]
      exact dir
    · rw [Function.update_of_ne own] at used
      have above := t.inside q other used
      have apart : q ≠ place ++ [name] := by
        rintro rfl
        exact plain above
      rw [Function.update_of_ne apart]
      exact above

/-- What is done to the content of a file, if there is one. -/
def modify (t : DirTree ν β) (place : List ν) (f : β → β) : DirTree ν β where
  entry q := match t.entry q with
    | some (.file x) => some (.file (if q = place then f x else x))
    | other => other
  inside q name used := by
    have dir : t.entry q = some .dir := by
      refine t.inside q name fun nothing => used ?_
      rw [nothing]
    rw [dir]

def remove (t : DirTree ν β) (place : List ν) (file : (t.content place).isSome) :
    DirTree ν β where
  entry := update t.entry place none
  inside q name used := by
    by_cases own : q ++ [name] = place
    · simp [own] at used
    · rw [Function.update_of_ne own] at used
      have dir := t.inside q name used
      rw [Function.update_of_ne]
      · exact dir
      · rintro rfl
        simp [content, dir] at file

section Contents

variable {t : DirTree ν β} {place q : List ν}

/-- Making directories touches no file. -/
@[simp] theorem content_mkdirs (clear : ¬t.Blocked place) :
    (t.mkdirs place clear).content = t.content := by
  funext q
  by_cases made : q <+: place ∧ t.entry q = none
  · simp [content, mkdirs, made]
  · simp only [content, mkdirs, made, if_false]

theorem entry_mkdirs_self (clear : ¬t.Blocked place) :
    (t.mkdirs place clear).entry place = some .dir := by
  rcases entry_of_clear clear (List.prefix_refl place) with none_here | dir
  · simp [mkdirs, none_here]
  · simp [mkdirs, dir]

@[simp] theorem content_setFile {name : ν} (dir : t.entry place = some .dir)
    (plain : t.entry (place ++ [name]) ≠ some .dir) (x : β) :
    (t.setFile place name dir plain x).content = update t.content (place ++ [name]) (some x) := by
  funext q
  by_cases here : q = place ++ [name]
  · subst here
    simp [content, setFile]
  · simp [content, setFile, here]

@[simp] theorem content_modify (f : β → β) :
    (t.modify place f).content = update t.content place ((t.content place).map f) := by
  funext q
  by_cases here : q = place
  · subst here
    rw [Function.update_self]
    simp only [content, modify, if_true]
    cases t.entry q with
    | none => rfl
    | some e => cases e <;> rfl
  · rw [Function.update_of_ne here]
    simp only [content, modify, here, if_false]
    cases t.entry q with
    | none => rfl
    | some e => cases e <;> rfl

@[simp] theorem content_remove (file : (t.content place).isSome) :
    (t.remove place file).content = update t.content place none := by
  funext q
  by_cases here : q = place
  · subst here
    simp [content, remove]
  · simp [content, remove, here]

end Contents

end DirTree

end Lib
