import Mathlib.Algebra.Ring.Nat
import Mathlib.Data.List.Range

/-! Stretches of an infinite stream. Reads of a stream in pieces give its stretches one
after the other, and records that each hold their part of it hold a stretch together. -/
namespace ImPir.KeyStream

section
variable {α : Type} (f : Nat → α)

def stretch (start length : Nat) : List α := (List.range length).map (fun i => f (start + i))

@[simp] theorem stretchLength (start length : Nat) : (stretch f start length).length = length := by
  simp [stretch]

theorem stretchAppend (start a b : Nat) : stretch f start a ++ stretch f (start + a) b = stretch f start (a + b) := by
  rw [stretch,stretch,stretch,List.range_add,List.map_append,List.map_map]
  congr 1
  apply List.map_congr_left
  intro i _
  rw [Function.comp_apply,Nat.add_assoc]

theorem stretchPart {start skip length total : Nat} (inside : skip + length ≤ total) :
    ((stretch f start total).drop skip).take length = stretch f (start + skip) length := by
  obtain ⟨rest,rfl⟩ : ∃ rest, total = skip + (length + rest) := ⟨total - skip - length,by omega⟩
  rw [← stretchAppend,← stretchAppend,List.drop_left' (stretchLength f _ _),List.take_left' (stretchLength f _ _)]

/- Records of one size that hold consecutive parts of the stream. -/
theorem stretchRecords {β : Type} (encode : β → List α) (size start : Nat) {records : List β}
    (part : ∀ j r, records[j]? = some r → encode r = stretch f (size*(start + j)) size) :
    records.flatMap encode = stretch f (size*start) (size*records.length) := by
  induction records generalizing start with
  | nil => rfl
  | cons r records ih =>
    have first := part 0 r rfl
    have rest := ih (start + 1) (fun j r' found => by
      rw [Nat.add_right_comm,Nat.add_assoc]
      exact part (j+1) r' found)
    rw [Nat.add_zero] at first
    rw [List.flatMap_cons,first,rest,Nat.mul_add_one,stretchAppend,List.length_cons,Nat.mul_add_one,Nat.add_comm size]

end
end ImPir.KeyStream
