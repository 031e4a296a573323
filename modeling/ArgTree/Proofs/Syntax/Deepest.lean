import ArgTree.Proofs.Syntax.Acceptance
import ArgTree.Proofs.Written.Lexemes
import ArgTree.Value.Path

namespace ArgTree

open Expression Lookahead Value

-- Expressions in which everything is as deep as a number of levels allows. A level holds an
-- assignment, which makes a map. Its value is the next level, which is closed before the comma
-- behind it makes a group of the assignment.
namespace Deepest

def front : List Lexeme :=
  [⟨.word, .str "x", "x"⟩, ⟨.whitespace, .str " ", " "⟩, ⟨.word, .str "a", "a"⟩,
   ⟨.equals, .str "=", "="⟩]

def core : List Lexeme :=
  front ++ [⟨.word, .str "b", "b"⟩]

def opening : List Lexeme :=
  front ++ [⟨.lSquare, .str "[", "["⟩]

def closing : List Lexeme :=
  [⟨.rSquare, .str "]", "]"⟩, ⟨.comma, .str ",", ","⟩, ⟨.word, .str "y", "y"⟩]

def lexemes : Nat → List Lexeme
  | 0     => core
  | n + 1 => opening ++ (lexemes n ++ closing)

def items : Nat → List Value
  | 0     => [.str "x", .map [("a", .str "b")]]
  | n + 1 => [.str "x", .list [.map [("a", .list (items n))], .str "y"]]

-- The way to the map in the midst of the items.
def steps : Nat → List Step
  | 0     => [.index 1]
  | n + 1 => .index 1 :: .index 0 :: .key "a" :: steps n

theorem length_steps (n : Nat) : (steps n).length = 3 * n + 1 := by
  induction n
  case zero      => rfl
  case succ n hi =>
    simp only [steps, List.length_cons, hi]
    omega

theorem descend?_steps (n : Nat) :
    descend? (.list (items n)) (steps n) = some (.map [("a", .str "b")]) := by
  induction n
  case zero      => rfl
  case succ n hi => exact hi

theorem lexes (n : Nat) : Lexes (Lexeme.textOf (lexemes n)).toList (lexemes n) := by
  have hf : ∀ ts ∈ [core, opening, closing], (grammar.lex (Lexeme.textOf ts)).map
      (fun lexed => lexed.tokens.map (·.toLexeme)) = .ok ts := by decide +kernel
  have hl {ts} (h : ts ∈ [core, opening, closing]) : Lexes (Lexeme.textOf ts).toList ts :=
    .of_map_lex (hf ts h)
  induction n
  case zero      => exact hl List.mem_cons_self
  case succ n hi =>
    have hc : Lexes (Lexeme.textOf (lexemes n ++ closing)).toList (lexemes n ++ closing) := by
      rw [toList_textOf_append]
      refine hi.append_of_standApart (hl (by simp)) fun t _ u hu => ?_
      cases hu
      exact .of_right rfl (by decide) _
    rw [lexemes, toList_textOf_append]
    refine (hl (by simp)).append_of_standApart hc fun t ht u _ => ?_
    cases ht
    exact .of_left rfl (by decide) _

theorem level (h : d + n ≤ m) (us : List Lexeme) :
    Syntax.Level m d (lexemes n ++ us) (items n) us := by
  have hx {d ts} : Syntax.Item m d (⟨.word, .str "x", "x"⟩ :: ts) (.str "x") ts := .element rfl
  have hy {d ts} : Syntax.Item m d (⟨.word, .str "y", "y"⟩ :: ts) (.str "y") ts := .element rfl
  have hs (ts : List Lexeme) :
      Syntax.Separates .whitespace (⟨.whitespace, .str " ", " "⟩ :: ts) ts :=
    .delimiter (.whitespace rfl)
  have ha {d ts v us} (h : Syntax.Assigned m d ts v us) : Syntax.Item m d
      (⟨.word, .str "a", "a"⟩ :: ⟨.equals, .str "=", "="⟩ :: ts) (.map [("a", v)]) us :=
    .assignment (.intro rfl .none rfl .none h)
  induction n generalizing d us
  case zero      => exact .intro .none (.whitespace hx (hs _) (.item (ha (.element rfl)))) .none
  case succ n hi =>
    have hd : d < m := by omega
    have hl := hi (d := d + 1) (by omega) (closing ++ us)
    rw [lexemes, List.append_assoc, List.append_assoc]
    have hb := ha (.list (t := ⟨.lSquare, .str "[", "["⟩) hd (.inl rfl) hl rfl)
    refine .intro .none (.whitespace hx (hs _) (.group ?_)) .none
    exact .intro hd hb (.comma .none rfl) (.item hy)

-- So the bound on the height is attained.
theorem parse_eq (m : Nat) : parse (Lexeme.textOf (lexemes m)) { maxDepth := m } =
    .ok (.list (items m)) := by
  have hl := level (d := 0) (n := m) (m := m) (by omega) []
  rw [List.append_nil] at hl
  refine (parse_eq_ok_iff_of_lexes (lexes m)).mpr ⟨items m, Syntax.Top.reads (.inr hl), ?_⟩
  cases m <;> rfl

end Deepest

end ArgTree
