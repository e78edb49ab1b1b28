import Phrasebook.Proofs.CallReading
import Phrasebook.Proofs.Respelling

/-!
The calls that localizing puts between the tokens of a script.

For a script without unicode escapes and without a header, and for an expression without unicode
escapes, the code that a run writes is the row of the source's tokens, respelled, and it is known how
every inserted call is read there (`respelled_between_tokens`). Respelling keeps whether a name ends
before a literal (`endsInName_respell`), so a look at the source is enough: the receiver is read as a
name of its own exactly when no name ends where the literal starts. The call is read as a whole where an
operand may stand, and never as the value of an attribute.

So the program around the literals need not be kept: in `typeof'你好'` the keyword grows into another
name.
-/

namespace Phrasebook.Script

/-! ## Wrapped tokens -/

mutual

/-- A wrapped token is the text of a string. -/
theorem string_of_mem_row {b : Bindings} {scope : Scope} :
    ∀ (t : Tree) (place : Place) (renamed : Bool), t.All Tree.Sound →
      ∀ k ∈ row b scope place renamed t, k.mark = .wrapped →
        ∃ role children, (Tree.node role .string children).Sound ∧
          k.text = (Tree.node role .string children).text
  | .leaf role kind gap text, place, renamed, _, k, hk, hm => by
    rw [row, List.mem_singleton] at hk
    subst hk
    cases renamed <;> cases hm
  | .node role kind children, place, renamed, hs, k, hk, hm => by
    rw [row] at hk
    split at hk
    · next hkind =>
      subst hkind
      rw [List.mem_singleton] at hk
      subst hk
      exact ⟨role, children, hs.self, rfl⟩
    · rw [Tree.All] at hs
      exact string_of_mem_rowAll children _ _ hs.2 k hk hm

theorem string_of_mem_rowAll {b : Bindings} {scope : Scope} :
    ∀ (ts : List Tree) (place : Place) (renamed : Bool), Tree.AllIn Tree.Sound ts →
      ∀ k ∈ rowAll b scope place renamed ts, k.mark = .wrapped →
        ∃ role children, (Tree.node role .string children).Sound ∧
          k.text = (Tree.node role .string children).text
  | [], place, renamed, _, k, hk, _ => by
    rw [rowAll] at hk
    cases hk
  | t :: ts, place, renamed, hs, k, hk, hm => by
    rw [Tree.AllIn] at hs
    rw [rowAll] at hk
    rcases List.mem_append.1 hk with hk | hk
    · exact string_of_mem_row t place _ hs.1 k hk hm
    · exact string_of_mem_rowAll ts place _ hs.2 k hk hm

end

end Phrasebook.Script
