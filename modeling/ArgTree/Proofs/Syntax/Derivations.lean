import ArgTree.Proofs.Parser.Regions

namespace ArgTree

open ArgTree.Parser Lookahead

def Convention.opposite : Convention → Convention
  | undetermined => undetermined
  | comma        => whitespace
  | whitespace   => comma

-- The grammar of expressions, over lexemes. A derivation goes from the lexemes in front of which a
-- phrase stands to those behind it. `m` is the number of levels that may be open at once inside the
-- top level, and `d` is the number of those that are.
namespace Syntax

-- Whitespace that may be left out.
inductive Pad : List Lexeme → List Lexeme → Prop
  | none  : Pad ts ts
  | space : t.kind = .whitespace → Pad (t :: ts) ts

-- The delimiter of a convention.
inductive Delimits : Convention → List Lexeme → List Lexeme → Prop
  | whitespace : t.kind = .whitespace → Delimits .whitespace (t :: ts) ts
  | comma      : Pad ts (t :: us) → t.kind = .comma → Delimits .comma ts us

-- What stands between two units. Whitespace may be left out, and so may the comma in front of an
-- opening bracket.
inductive Separates : Convention → List Lexeme → List Lexeme → Prop
  | delimiter : Delimits c ts us → Separates c ts us
  | adjacent  : Separates .whitespace ts ts
  | opening   : (kind ts).isOpening → Separates .comma ts ts

mutual

inductive Item (m : Nat) : Nat → List Lexeme → Value → List Lexeme → Prop
  | element    : t.kind.isElement → Item m d (t :: ts) (.ofScalar t.value) ts
  | escape     : t.kind = .escape → Escaped run →
                 Item m d (t :: (run ++ us)) (.str (Lexeme.textOf run)) us
  | verbatim   : t.kind = .lParen → Balanced .rParen region → u.kind = .rParen →
                 Item m d (t :: (region ++ u :: us)) (.str (Lexeme.textOf (t :: region ++ [u]))) us
  | hash       : d < m → Hash m (d + 1) ts v us → Item m d ts v us
  | array      : d < m → t.kind = .lSquare → Level m (d + 1) ts vs (u :: us) → u.kind = .rSquare →
                 Item m d (t :: ts) (.list vs) us
  | assignment : Assignment m d ts (key, v) us → Item m d ts (.map [(key, v)]) us

inductive Assignment (m : Nat) : Nat → List Lexeme → String × Value → List Lexeme → Prop
  | intro : t.kind.isElement → Pad ts (u :: us) → u.kind = .equals → Pad us vs →
            Assigned m d vs v ws → Assignment m d (t :: ts) (t.text, v) ws

-- The value of an assignment.
inductive Assigned (m : Nat) : Nat → List Lexeme → Value → List Lexeme → Prop
  | element : t.kind.isElement → Assigned m d (t :: ts) (.ofScalar t.value) ts
  | hash    : d < m → Hash m (d + 1) ts v us → Assigned m d ts v us
  | list    : d < m → t.kind = .lSquare ∨ t.kind = .lParen → Level m (d + 1) ts vs (u :: us) →
              t.kind.closing? = some u.kind → Assigned m d (t :: ts) (.list vs) us

inductive Hash (m : Nat) : Nat → List Lexeme → Value → List Lexeme → Prop
  | intro : t.kind = .lCurly → Pad ts us → Assignment m d us e vs → HashTail m d vs es ws →
            Hash m d (t :: ts) (.map (Entries.ofPairs (e :: es))) ws

-- The entries behind the first one of a hash, and its closing bracket.
inductive HashTail (m : Nat) : Nat → List Lexeme → List (String × Value) → List Lexeme → Prop
  | close : Pad ts (t :: us) → t.kind = .rCurly → HashTail m d ts [] us
  | comma : Pad ts (t :: us) → t.kind = .comma → Assignment m d us e vs → HashTail m d vs es ws →
            HashTail m d ts (e :: es) ws

inductive Level (m : Nat) : Nat → List Lexeme → List Value → List Lexeme → Prop
  | intro : Pad ts us → Body m d us vs ws → Pad ws xs → Level m d ts vs xs

-- The first two items decide the convention of a level.
inductive Body (m : Nat) : Nat → List Lexeme → List Value → List Lexeme → Prop
  | single     : Item m d ts v us → Body m d ts [v] us
  | whitespace : Item m d ts v us → Separates .whitespace us ws →
                 Units m d .whitespace true ws vs xs → Body m d ts (v :: vs) xs
  | comma      : Item m d ts v us → Delimits .comma us ws → Units m d .comma true ws vs xs →
                 Body m d ts (v :: vs) xs

-- One or more units: items, and where `groups` says so, groups of the opposite convention. What
-- could still belong to a group does.
inductive Units (m : Nat) : Nat → Convention → (groups : Bool) → List Lexeme → List Value →
    List Lexeme → Prop
  | item      : Item m d ts v us → Units m d c groups ts [v] us
  | group     : Group m d c.opposite ts v us → Units m d c true ts [v] us
  | itemMore  : Item m d ts v us → Separates c us ws → Units m d c groups ws vs xs →
                Units m d c groups ts (v :: vs) xs
  | groupMore : Group m d c.opposite ts v us → Separates c us ws → ¬Separates c.opposite us ws →
                Units m d c true ws vs xs → Units m d c true ts (v :: vs) xs

-- A group is one level further in, but for its first item.
inductive Group (m : Nat) : Nat → Convention → List Lexeme → Value → List Lexeme → Prop
  | intro : d < m → Item m d ts v us → Delimits c us ws → Units m (d + 1) c false ws vs xs →
            Group m d c ts (.list (v :: vs)) xs

end

-- A whole expression. Only the top level may be empty.
def Top (m : Nat) (ts : List Lexeme) (vs : List Value) : Prop :=
  vs = [] ∧ Pad ts [] ∨ Level m 0 ts vs []

end Syntax

end ArgTree
