import ArgTree.Proofs.Expression.Scalars
import ArgTree.Proofs.Syntax.Derivations

namespace ArgTree

open Expression Lookahead

namespace Syntax

-- No whitespace follows whitespace or a comma.
def Spaced (ts : List Lexeme) : Prop :=
  ts.IsChain fun t u => t.kind = .whitespace ∨ t.kind = .comma → u.kind ≠ .whitespace

theorem spaced_of_lexes (h : Lexes cs ts)
    (hc : ts.IsChain fun t u => t.kind = .comma → u.kind ≠ .whitespace) : Spaced ts := by
  induction h
  case nil => exact .nil
  case cons t cs ts ht hts hi =>
    refine List.isChain_cons.mpr ⟨?_, hi (List.isChain_cons.mp hc).right⟩
    intro u hu hk
    cases hts
    case nil => contradiction
    case cons cs us hu' _ =>
      cases hu
      exact hk.elim (ht.not_whitespace hu') (hc.rel_head? (by simp))

namespace Spaced

theorem of_suffix (h : Spaced ts) (hs : us <:+ ts) : Spaced us :=
  h.suffix hs

theorem of_cons (h : Spaced (t :: ts)) : Spaced ts :=
  h.of_suffix (List.suffix_cons t ts)

theorem kind_ne (h : Spaced (t :: ts)) (hk : t.kind = .whitespace ∨ t.kind = .comma) :
    kind ts ≠ .whitespace := by
  cases ts
  case nil      => exact nofun
  case cons u _ => exact h.rel_head? (by simp) hk

end Spaced

theorem Spaced.pad (h : Spaced ts) : Pad ts (skipWhitespace ts) := by
  by_cases hk : kind ts = .whitespace
  case neg =>
    rw [skipWhitespace_of_kind hk]
    exact .none
  case pos =>
    cases ts
    case nil => exact .none
    case cons t ts =>
      rw [skipWhitespace_cons hk, skipWhitespace_of_kind (h.kind_ne (.inl hk))]
      exact .space hk

theorem Spaced.padding (h : Spaced ts) : Pad ts (skipPadding ts) := by
  simp only [skipPadding]
  split
  case isTrue  => exact h.pad
  case isFalse => exact .none

end Syntax

end ArgTree
