/-!
# Counted text

A text whose length is known from elsewhere is cut off the front of what follows.
`take?_eq_some_iff` says that the two parts are the whole and that the first has that length.
-/

namespace ElfFormat

namespace Counted

/-- The first `n` characters and the text behind them, if there are as many. -/
def take? (n : Nat) (cs : List Char) : Option (List Char × List Char) :=
  let front := cs.take n
  if front.length = n then some (front, cs.drop n) else none

theorem take?_eq_some_iff {n : Nat} {cs front rest : List Char} :
    take? n cs = some (front, rest) ↔ cs = front ++ rest ∧ front.length = n := by
  simp only [take?]
  constructor
  · intro h
    split at h
    · next hn => cases h; exact ⟨(List.take_append_drop n cs).symm, hn⟩
    · cases h
  · rintro ⟨rfl, rfl⟩
    simp

theorem length_of_take? {n : Nat} {cs front rest : List Char}
    (h : take? n cs = some (front, rest)) : rest.length ≤ cs.length := by
  obtain ⟨rfl, -⟩ := take?_eq_some_iff.1 h
  simp

end Counted

end ElfFormat
