import ArgTree.Rule

namespace ArgTree

-- The rules that cut a text into tokens: the first one that matches wins, and the fallback comes
-- last. No rule gives a token of the kind that marks the end of the text.
structure Grammar where
  rules    : List Rule
  fallback : Option Rule := none
  proper   : ∀ r ∈ rules ++ fallback.toList, r.kind ≠ .endOfText

namespace Grammar

def allRules (g : Grammar) : List Rule :=
  g.rules ++ g.fallback.toList

def ofRules (rules : List Rule) (fallback : Option Rule) : Except GrammarError Grammar :=
  if h : ∀ r ∈ rules ++ fallback.toList, r.kind ≠ .endOfText then
    .ok { rules, fallback, proper := h }
  else
    .error (.reservedKind .endOfText)

-- The kinds of tokens that a grammar can give, in their order.
def kinds (g : Grammar) : List Kind :=
  Kind.all.filter fun k => g.allRules.any (·.kind = k)

-- The first rule that matches at the start of a text, and the number of characters it matches.
def match? (g : Grammar) (cs : List Char) : Option (Rule × Nat) :=
  g.allRules.findSome? fun r => (r.pattern.matchLength? cs).map (r, ·)

theorem match?_pos {g : Grammar} (h : g.match? cs = some (r, n)) : 0 < n := by
  obtain ⟨_, _, h⟩ := List.exists_of_findSome?_eq_some h
  obtain ⟨_, h, he⟩ := Option.map_eq_some_iff.mp h
  exact (Prod.mk.inj he).right ▸ Pattern.matchLength?_pos h

theorem mem_of_match? {g : Grammar} (h : g.match? cs = some (r, n)) : r ∈ g.allRules := by
  obtain ⟨_, hm, h⟩ := List.exists_of_findSome?_eq_some h
  obtain ⟨_, _, he⟩ := Option.map_eq_some_iff.mp h
  exact (Prod.mk.inj he).left ▸ hm

-- Whether two grammars have rules that agree, one by one.
def agrees (g h : Grammar) : Bool :=
  agree g.rules h.rules && agree g.fallback.toList h.fallback.toList
where
  agree : List Rule → List Rule → Bool
    | [],      []      => true
    | r :: rs, s :: ss => r.agrees s && agree rs ss
    | _,       _       => false

end Grammar

end ArgTree
