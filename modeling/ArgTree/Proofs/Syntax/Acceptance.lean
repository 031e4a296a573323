import ArgTree.Proofs.Parser.Parse
import ArgTree.Proofs.Syntax.Completeness
import ArgTree.Proofs.Syntax.Soundness
import ArgTree.Proofs.Written.Texts

namespace ArgTree

open ArgTree.Parser Lookahead

namespace Syntax

theorem Top.reads (h : Top m ts vs) : ReadsLevel (nested m) .endOfText none ts vs [] := by
  rcases h with ⟨rfl, hp⟩ | h
  case inl =>
    have hs := hp.skipWhitespace_eq nofun
    refine ⟨?_, ?_, ?_⟩ <;> rw [hs]
    case refine_1 => exact nofun
    case refine_2 => rfl
    case refine_3 => exact .ends rfl rfl
  case inr =>
    cases h with
    | intro hp hb hp' => exact level_reads hp hb.begins <| hb.reads (.endOfText hp') trivial

theorem top_iff_reads (hs : Spaced ts) :
    Top m ts vs ↔ ReadsLevel (nested m) .endOfText none ts vs [] :=
  ⟨Top.reads, fun h => top_of_reads (nested_derived (Nat.add_zero m)) h hs⟩

end Syntax

namespace TokenSequence

open Syntax

variable {s : TokenSequence} {text : String}

-- The parser accepts what the grammar derives, and reads it as the grammar says.
theorem parse_eq_ok_list_iff_top (hs : ofSource text = .ok s)
    (hc : s.lexemes.IsChain fun t u => t.kind = .comma → u.kind ≠ .whitespace) :
    s.parse { unwrapSingleton := false, maxDepth := m } = .ok (.list vs) ↔ Top m s.lexemes vs := by
  have hs := spaced_of_lexes (lexes_of_ofSource hs) hc
  rw [parse_eq_ok_iff, top_iff_reads hs]
  constructor
  case mp =>
    rintro ⟨_, h, he⟩
    cases he
    exact h
  case mpr => exact fun h => ⟨vs, h, rfl⟩

theorem parse_eq_ok_list_iff_top_group : ∃ s, ofSource "a b,c" = .ok s ∧
    s.parse { unwrapSingleton := false, maxDepth := 1 } =
      .ok (.list [.str "a", .list [.str "b", .str "c"]]) ∧
    Top 1 s.lexemes [.str "a", .list [.str "b", .str "c"]] := by
  have hv : (ofSource "a b,c").bind (·.parse { unwrapSingleton := false, maxDepth := 1 }) =
      .ok (.list [.str "a", .list [.str "b", .str "c"]]) := by cbv
  have hk : (ofSource "a b,c").map (·.lexemes.map (·.kind)) =
      .ok [.word, .whitespace, .word, .comma, .word] := by cbv
  cases hs : ofSource "a b,c" <;> simp only [hs, Except.bind, Except.map] at hv hk
  case error => contradiction
  case ok s  =>
    have hc : (s.lexemes.map (·.kind)).IsChain fun k l => k = .comma → l ≠ .whitespace := by
      rw [Except.ok.inj hk]
      decide
    exact ⟨s, rfl, hv, (parse_eq_ok_list_iff_top hs (List.isChain_map _ |>.mp hc)).mp hv⟩

end TokenSequence

end ArgTree
