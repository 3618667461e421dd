import Mathlib.Data.List.Basic
import Mathlib.Data.List.TakeDrop
import Mathlib.Data.Nat.Notation

/-! Positional writes and reads of a file, and how far a file agrees with the data that is
being written into it front to back. -/
namespace Lib.Files

variable {α : Type} [Zero α]

/-- A positional write. A gap before it is filled with zeros; writing nothing leaves the
length as it is. -/
def writeAt (file : List α) (offset : Nat) (chunk : List α) : List α :=
  if chunk = [] then file
  else (file ++ .replicate (offset - file.length) 0).take offset ++ chunk ++
    file.drop (offset + chunk.length)

omit [Zero α] in
/-- What a read finds: nothing only at the end of the file. -/
def readAt (file : List α) (offset amount : Nat) : List α := (file.drop offset).take (amount + 1)

/-- The first `count` units are those of `data`, and nothing follows that `data` does not have. -/
structure Filled (data : List α) (count : Nat) (file : List α) : Prop where
  within : count ≤ data.length
  short : file.length ≤ data.length
  agrees : ∀ i < count, file[i]? = data[i]?

@[simp] theorem writeAt_nil (file : List α) (offset : Nat) : writeAt file offset [] = file := by
  simp [writeAt]

theorem length_writeAt {file chunk : List α} {offset : Nat} (some_chunk : chunk ≠ []) :
    (writeAt file offset chunk).length = max file.length (offset + chunk.length) := by
  simp only [writeAt, some_chunk, if_false, List.length_append, List.length_take,
    List.length_replicate, List.length_drop]
  omega

theorem getElem?_writeAt_inside {file chunk : List α} {offset i : Nat} (start : offset ≤ i)
    (stop : i < offset + chunk.length) : (writeAt file offset chunk)[i]? = chunk[i - offset]? := by
  have some_chunk : chunk ≠ [] := by
    rintro rfl
    simp at stop
    omega
  have reached : ((file ++ .replicate (offset - file.length) 0).take offset).length = offset := by
    simp only [List.length_take, List.length_append, List.length_replicate]
    omega
  simp only [writeAt, some_chunk, if_false, List.append_assoc]
  rw [List.getElem?_append_right (by omega), reached, List.getElem?_append_left (by omega)]

theorem getElem?_writeAt_outside {file chunk : List α} {offset i : Nat} (present : i < file.length)
    (outside : i < offset ∨ offset + chunk.length ≤ i) :
    (writeAt file offset chunk)[i]? = file[i]? := by
  by_cases some_chunk : chunk = []
  · rw [some_chunk, writeAt_nil]
  have reached : ((file ++ .replicate (offset - file.length) 0).take offset).length = offset := by
    simp only [List.length_take, List.length_append, List.length_replicate]
    omega
  simp only [writeAt, some_chunk, if_false, List.append_assoc]
  rcases outside with before | behind
  · rw [List.getElem?_append_left (by omega), List.getElem?_take_of_lt before,
      List.getElem?_append_left present]
  · rw [List.getElem?_append_right (by omega), reached, List.getElem?_append_right (by omega),
      List.getElem?_drop]
    congr 1
    omega

section Filled

variable {data file : List α} {count offset amount : Nat}

omit [Zero α]

theorem filled_nil (data : List α) : Filled data 0 [] :=
  ⟨Nat.zero_le _, Nat.zero_le _, fun _ impossible => absurd impossible (Nat.not_lt_zero _)⟩

theorem Filled.count_le (filled : Filled data count file) : count ≤ file.length := by
  by_contra short
  have end_agrees := filled.agrees file.length (by omega)
  have within := filled.within
  rw [List.getElem?_eq_none (Nat.le_refl _), List.getElem?_eq_getElem (by omega)] at end_agrees
  contradiction

/-- A file filled to the end is the data. -/
theorem Filled.eq (filled : Filled data data.length file) : file = data := by
  have same_length := Nat.le_antisymm filled.short filled.count_le
  apply List.ext_getElem?
  intro i
  by_cases inside : i < data.length
  · exact filled.agrees i inside
  · rw [List.getElem?_eq_none (by omega), List.getElem?_eq_none (by omega)]

/-- A read that finds nothing but what is filled, or comes after all of it is there, finds
what the data has at that place. -/
theorem Filled.readAt (filled : Filled data count file)
    (covered : count = data.length ∨ offset < min (offset + amount + 1) file.length ∧
      min (offset + amount + 1) file.length ≤ count) :
    ∃ width, readAt file offset amount = readAt data offset width := by
  rcases covered with all | ⟨found, inside⟩
  · subst all
    exact ⟨amount, by rw [filled.eq]⟩
  · refine ⟨min (offset + amount + 1) file.length - offset - 1, ?_⟩
    apply List.ext_getElem?
    intro i
    simp only [Files.readAt, List.getElem?_take, List.getElem?_drop]
    by_cases near : offset + i < min (offset + amount + 1) file.length
    · rw [if_pos (by omega), if_pos (by omega)]
      exact filled.agrees _ (by omega)
    · rw [if_neg (by omega : ¬i < _ - offset - 1 + 1)]
      split
      next => exact List.getElem?_eq_none (by omega)
      next => rfl

/-- Reading on from the end of what was read so far. -/
theorem append_readAt {read : List α} (begins : read <+: data) (amount : Nat) :
    read ++ Files.readAt data read.length amount <+: data := by
  obtain ⟨rest, rfl⟩ := begins
  simp only [Files.readAt, List.drop_left, List.prefix_append_right_inj]
  exact List.take_prefix _ _

/-- Nothing left to read is the end of the data. -/
theorem eq_of_readAt_nil {read : List α} (begins : read <+: data)
    (exhausted : Files.readAt data read.length amount = []) : read = data := by
  obtain ⟨rest, rfl⟩ := begins
  simp only [Files.readAt, List.drop_left, List.take_eq_nil_iff] at exhausted
  simpa using exhausted

end Filled

section Filled

variable {data file : List α} {count offset : Nat}

/-- Writing the data at its own place keeps what is filled, whoever writes. -/
theorem Filled.writeAt (filled : Filled data count file) (offset amount : Nat) :
    Filled data count (writeAt file offset ((data.drop offset).take amount)) := by
  by_cases nothing : (data.drop offset).take amount = []
  · simpa only [nothing, writeAt_nil] using filled
  have available := filled.count_le
  have short := filled.short
  refine ⟨filled.within, ?_, fun i early => ?_⟩
  · rw [length_writeAt nothing, List.length_take, List.length_drop]
    have inside : offset < data.length := by
      by_contra outside
      exact nothing (by simp [List.drop_eq_nil_of_le (Nat.le_of_not_lt outside)])
    omega
  · by_cases inside : offset ≤ i ∧ i < offset + ((data.drop offset).take amount).length
    · have near : i - offset < amount := by
        have width := inside.2
        rw [List.length_take] at width
        omega
      rw [getElem?_writeAt_inside inside.1 inside.2, List.getElem?_take_of_lt near,
        List.getElem?_drop]
      congr 1
      omega
    · rw [getElem?_writeAt_outside (by omega) (by omega)]
      exact filled.agrees i early

/-- The writer whose place is the end of the filled part moves it on. -/
theorem Filled.extend (filled : Filled data count file) (amount : Nat) :
    Filled data (count + ((data.drop count).take amount).length)
      (Files.writeAt file count ((data.drop count).take amount)) := by
  have kept := filled.writeAt count amount
  have within := filled.within
  refine ⟨?_, kept.short, fun i early => ?_⟩
  · rw [List.length_take, List.length_drop]
    omega
  · by_cases before : i < count
    · exact kept.agrees i before
    · have near : i - count < amount := by
        rw [List.length_take] at early
        omega
      rw [getElem?_writeAt_inside (by omega) early, List.getElem?_take_of_lt near,
        List.getElem?_drop]
      congr 1
      omega

end Filled

end Lib.Files
