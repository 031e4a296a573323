import ArgTree.Proofs.Lexing.Tiles

namespace ArgTree

-- The token that a tile stands for at a place.
def Tile.token (start : Nat) (t : Tile) : Token where
  kind  := t.rule.kind
  value := t.value
  text  := t.text
  span  := ⟨start, start + t.text.length⟩

theorem Tile.tokens_cons (start : Nat) (t : Tile) (ts : List Tile) :
    tokens start (t :: ts) =
      if t.rule.ignored then tokens (start + t.text.length) ts
      else t.token start :: tokens (start + t.text.length) ts := rfl

theorem Tile.tokens_of_ignored (h : ∀ t ∈ ts, t.rule.ignored) (start : Nat) :
    tokens start ts = [] := by
  induction ts generalizing start
  case nil          => rfl
  case cons t ts hi =>
    have ⟨ht, hts⟩ := List.forall_mem_cons.mp h
    rw [tokens_cons, if_pos ht, hi hts]

namespace Lexer

-- What a lexer can be asked for: the next token, which may be the one that marks the end of the
-- text, or the next element of the sequence of tokens.
inductive Call
  | next
  | advance

def call (l : Lexer) : Call → Lexer
  | .next    => l.next.2
  | .advance => l.advance.2

-- The lexer after some calls.
def after (l : Lexer) (calls : List Call) : Lexer :=
  calls.foldl call l

variable {l l' : Lexer}

@[simp]
theorem after_nil (l : Lexer) : l.after [] = l := rfl

@[simp]
theorem after_cons (l : Lexer) (c : Call) (cs : List Call) :
    l.after (c :: cs) = (l.call c).after cs :=
  rfl

theorem after_append (l : Lexer) (cs ds : List Call) : l.after (cs ++ ds) = (l.after cs).after ds :=
  List.foldl_append

theorem pass_pass (l : Lexer) (ts us : List Tile) (ds es : List Char) :
    (l.pass ts ds).pass us es = l.pass (ts ++ us) es := by
  simp [pass, Tile.width_append, Nat.add_assoc]

theorem pass_nil (h : l.rest = ds) : l.pass [] ds = l := by
  subst h
  rfl

theorem next_of_nil (h : l.rest = []) :
    l.next = (.ok (.endOfText l.offset), { l with ended := true }) := by
  rw [next, dif_pos h]

theorem next_of_rejects (h : l.grammar.Rejects l.rest cause text) :
    l.next = (.error { cause, text, offset := l.offset }, l) := by
  rw [next, dif_neg h.ne_nil]
  split <;> simp_all [piece_of_rejects h]

theorem next_of_cuts (h : l.grammar.Cuts t l.rest ds) : l.next =
    if t.rule.ignored then (l.pass [t] ds).next else (.ok (t.token l.offset), l.pass [t] ds) := by
  have hp := piece_of_cuts h
  rw [next, dif_neg h.ne_nil]
  split
  case h_1 he => cases hp.symm.trans he
  case h_2 he =>
    cases hp.symm.trans he
    rfl

-- What a lexer does when it is asked for the next token. It passes over tiles that are ignored.
-- Then it is at the end of the text, or cannot cut off a tile, or cuts off one that is not ignored.
inductive Steps (l : Lexer) : Except LexError Token → Lexer → Prop
  | ends  : l.grammar.Tiles l.rest ts [] → (∀ t ∈ ts, t.rule.ignored) →
            Steps l (.ok (.endOfText (l.offset + Tile.width ts)))
              { l.pass ts [] with ended := true }
  | fails : l.grammar.Tiles l.rest ts ds → (∀ t ∈ ts, t.rule.ignored) →
            l.grammar.Rejects ds cause text →
            Steps l (.error { cause, text, offset := l.offset + Tile.width ts }) (l.pass ts ds)
  | gives : l.grammar.Tiles l.rest ts cs → (∀ t ∈ ts, t.rule.ignored) → l.grammar.Cuts t cs ds →
            t.rule.ignored = false →
            Steps l (.ok (t.token (l.offset + Tile.width ts))) (l.pass (ts ++ [t]) ds)

theorem Steps.ignore (h : (l.pass [t] ds).Steps answer l') (hc : l.grammar.Cuts t l.rest ds)
    (ht : t.rule.ignored) : l.Steps answer l' := by
  have hw (ts : List Tile) :
      (l.pass [t] ds).offset + Tile.width ts = l.offset + Tile.width (t :: ts) := by
    simp [pass, Nat.add_assoc]
  have hi {ts : List Tile} (h : ∀ t ∈ ts, t.rule.ignored) : ∀ u ∈ t :: ts, u.rule.ignored :=
    List.forall_mem_cons.mpr ⟨ht, h⟩
  cases h with
  | ends hts hn =>
    rw [hw, pass_pass]
    exact .ends (.cons hc hts) (hi hn)
  | fails hts hn hr =>
    rw [hw, pass_pass]
    exact .fails (.cons hc hts) (hi hn) hr
  | gives hts hn hcs hg =>
    rw [hw, pass_pass]
    exact .gives (.cons hc hts) (hi hn) hcs hg

theorem steps_next (l : Lexer) : l.Steps l.next.1 l.next.2 := by
  by_cases hn : l.rest = []
  case pos =>
    have ht : l.grammar.Tiles l.rest [] [] := by
      rw [hn]
      exact .nil
    have h := Steps.ends ht (List.forall_mem_nil _)
    rw [pass_nil hn] at h
    rw [next_of_nil hn]
    exact h
  case neg =>
    rcases Grammar.cuts_or_rejects (g := l.grammar) hn with ⟨t, ds, hc⟩ | ⟨cause, text, hr⟩
    case inr =>
      rw [next_of_rejects hr]
      exact .fails .nil (List.forall_mem_nil _) hr
    case inl =>
      have := hc.length_lt
      rw [next_of_cuts hc]
      split
      case isTrue ht  => exact (steps_next (l.pass [t] ds)).ignore hc ht
      case isFalse ht => exact .gives .nil (List.forall_mem_nil _) hc (Bool.eq_false_iff.mpr ht)
termination_by l.rest.length

theorem steps_of_next (h : l.next.1 = answer) : l.Steps answer l.next.2 :=
  h ▸ steps_next l

-- A token that does not mark the end of the text is the first one of those that are left.
theorem collect_of_next (h : l.next.1 = .ok t) (hk : t.kind ≠ .endOfText) :
    l.next.2.ended = l.ended ∧
      l.collect = l.next.2.collect.map fun lexed => { lexed with tokens := t :: lexed.tokens } := by
  have hs := steps_of_next h
  generalize l.next.2 = l' at hs
  cases hs with
  | ends  => exact absurd rfl hk
  | @gives ts cs t ds hts hn hc hg =>
    have hd : l.grammar.Tiles l.rest (ts ++ [t]) ds := hts.append (.cons hc .nil)
    have ht : Tile.tokens l.offset (ts ++ [t]) = [t.token (l.offset + Tile.width ts)] := by
      rw [Tile.tokens_append, Tile.tokens_of_ignored hn, Tile.tokens_cons, hg]
      rfl
    refine ⟨rfl, ?_⟩
    rw [collect_of_tiles hd, ht]
    rfl

-- So calls that give such tokens take them from the front, and nothing else of what is left.
theorem collect_after_next (h : ∀ i < k, ∃ t,
    (l.after (List.replicate i .next)).next.1 = .ok t ∧ t.kind ≠ .endOfText) :
    (l.after (List.replicate k .next)).ended = l.ended ∧ ∃ before, before.length = k ∧
      l.collect = (l.after (List.replicate k .next)).collect.map fun lexed =>
        { lexed with tokens := before ++ lexed.tokens } := by
  induction k
  case zero =>
    refine ⟨rfl, [], rfl, ?_⟩
    cases hc : l.collect <;> simp [hc, Except.map]
  case succ k hi =>
    have ⟨he, before, hl, hb⟩ := hi fun i hi => h i (Nat.lt_succ_of_lt hi)
    have ⟨t, ht, hk⟩ := h k (Nat.lt_succ_self k)
    have ⟨he', hc⟩ := collect_of_next ht hk
    rw [List.replicate_succ', after_append, after_cons, after_nil, call]
    refine ⟨he'.trans he, before ++ [t], by simp [hl], ?_⟩
    rw [hb, hc]
    cases (l.after (List.replicate k .next)).next.2.collect <;> simp [Except.map]

-- What a lexer gives as an element of a sequence, behind `n` others.
def element? (l : Lexer) (n : Nat) : Option (Except LexError Token) :=
  (l.after (List.replicate n .advance)).advance.1

-- As a sequence, a lexer has these elements. Behind them it never has another one.
def Enumerates (l : Lexer) (xs : List (Except LexError Token)) : Prop :=
  ∀ n, l.element? n = xs[n]?

theorem eq_of_ended (h : l.ended) : { l with ended := true } = l := by
  obtain ⟨_, _, _, _, _⟩ := l
  exact congrArg _ h.symm

theorem advance_of_ended (h : l.ended) : l.advance = (none, l) := by
  rw [advance, if_pos h]

theorem advance_of_nil (h : l.rest = []) : l.advance = (none, { l with ended := true }) := by
  rw [advance]
  split
  case isTrue he => rw [eq_of_ended he]
  case isFalse   => rw [next_of_nil h]; rfl

theorem advance_of_rejects (he : l.ended = false) (h : l.grammar.Rejects l.rest cause text) :
    l.advance = (some (.error { cause, text, offset := l.offset }), { l with ended := true }) := by
  rw [advance, if_neg (by simp [he]), next_of_rejects h]

theorem advance_of_cuts (he : l.ended = false) (h : l.grammar.Cuts t l.rest ds) : l.advance =
    if t.rule.ignored then (l.pass [t] ds).advance
    else (some (.ok (t.token l.offset)), l.pass [t] ds) := by
  have he' : (l.pass [t] ds).ended = false := he
  have hk : (t.token l.offset).kind ≠ .endOfText := l.grammar.proper t.rule h.rule_mem
  rw [advance, if_neg (Bool.eq_false_iff.mp he), next_of_cuts h]
  by_cases ht : t.rule.ignored
  case pos => rw [if_pos ht, if_pos ht, advance, if_neg (Bool.eq_false_iff.mp he')]
  case neg => simp only [if_neg ht, if_neg hk]

namespace Enumerates

theorem congr (h : l.advance = l'.advance) : l.Enumerates xs ↔ l'.Enumerates xs := by
  have he (n : Nat) : l.element? n = l'.element? n := by
    cases n
    case zero   => exact congrArg Prod.fst h
    case succ n => simp only [element?, List.replicate_succ, after_cons, call, h]
  simp only [Enumerates, he]

theorem cons (h : l.advance = (some x, l')) (hx : l'.Enumerates xs) : l.Enumerates (x :: xs) := by
  intro n
  cases n
  case zero   => exact congrArg Prod.fst h
  case succ n =>
    have he : l.element? (n + 1) = l.advance.2.element? n := rfl
    rw [he, h, hx n, List.getElem?_cons_succ]

theorem of_advance (h : l.advance = (none, l')) (hx : l'.Enumerates []) : l.Enumerates [] := by
  intro n
  cases n
  case zero   => exact congrArg Prod.fst h
  case succ n =>
    have he : l.element? (n + 1) = l.advance.2.element? n := rfl
    rw [he, h, hx n, List.getElem?_nil, List.getElem?_nil]

theorem of_ended (h : l.ended) : l.Enumerates [] := by
  intro n
  induction n
  case zero      => exact congrArg Prod.fst (advance_of_ended h)
  case succ n hi =>
    have he : l.element? (n + 1) = l.advance.2.element? n := rfl
    rw [he, advance_of_ended h, hi]
    rfl

theorem of_nil (h : l.rest = []) : l.Enumerates [] :=
  of_advance (advance_of_nil h) (of_ended rfl)

theorem of_rejects (he : l.ended = false) (h : l.grammar.Rejects l.rest cause text) :
    l.Enumerates [.error { cause, text, offset := l.offset }] :=
  cons (advance_of_rejects he h) (of_ended rfl)

-- The tokens of the tiles come first.
theorem of_tiles (he : l.ended = false) (h : l.grammar.Tiles l.rest ts ds)
    (hx : (l.pass ts ds).Enumerates xs) :
    l.Enumerates ((Tile.tokens l.offset ts).map .ok ++ xs) := by
  generalize hg : l.grammar = g at h
  generalize hl : l.rest = cs at h
  induction h generalizing l
  case nil => exact pass_nil hl ▸ hx
  case cons t cs es ts ds hc _ hi =>
    subst hg hl
    have ha := advance_of_cuts he hc
    have hi := hi (l := l.pass [t] es) he (pass_pass l .. ▸ hx) rfl rfl
    rw [Tile.tokens_cons]
    split at ha
    case isTrue ht  => exact (congr ha).mpr (if_pos ht ▸ hi)
    case isFalse ht => exact if_neg ht ▸ cons ha hi

end Enumerates

-- A lexer gives the same tokens in every way to ask for them: as elements of a sequence, all at
-- once, and the first ones on their own and the others at once. A failure is the last element.
theorem calls_agree (g : Grammar) (source : String) :
    (∀ lexed, g.lex source = .ok lexed → (ofSource g source).Enumerates (lexed.tokens.map .ok)) ∧
    (∀ e, g.lex source = .error e → ∃ ts rest, g.Tiles source.toList ts rest ∧
      g.Rejects rest e.cause e.text ∧ e.offset = Tile.width ts ∧
      (ofSource g source).Enumerates ((Tile.tokens 0 ts).map .ok ++ [.error e])) ∧
    ∀ k, (∀ i < k, ∃ t, ((ofSource g source).after (List.replicate i .next)).next.1 = .ok t ∧
        t.kind ≠ .endOfText) →
      ((ofSource g source).after (List.replicate k .next)).remaining =
        (g.lex source).map fun lexed => { lexed with tokens := lexed.tokens.drop k } := by
  refine ⟨fun lexed h => ?_, fun e h => ?_, fun k h => ?_⟩
  case refine_1 =>
    obtain ⟨ts, ht, rfl⟩ := Grammar.exists_tiles_of_lex h
    have hx := Enumerates.of_tiles (l := ofSource g source) rfl ht (.of_nil rfl)
    rwa [List.append_nil] at hx
  case refine_2 =>
    obtain ⟨ts, rest, ht, hr, ho⟩ := Grammar.exists_rejects_of_lex h
    have hx := Enumerates.of_tiles (l := ofSource g source) rfl ht (.of_rejects rfl hr)
    refine ⟨ts, rest, ht, hr, ho, ?_⟩
    have he : (ofSource g source).offset + Tile.width ts = e.offset := by simp [ofSource, ho]
    simp only [pass, he] at hx
    exact hx
  case refine_3 =>
    obtain ⟨he, before, hl, hc⟩ := collect_after_next h
    have hs : g.lex source = (ofSource g source).collect := rfl
    rw [hs, hc, remaining, he, if_neg (by simp [ofSource])]
    cases ((ofSource g source).after (List.replicate k .next)).collect <;> simp [Except.map, ← hl]

-- The first bracket is taken on its own, and counts. What is refused is the last element.
theorem calls_agree_angle :
    let rules : List Rule :=
      [{ pattern := .literal "<", kind := .lSquare, increment := some "angle" },
       { pattern := .literal " ", kind := .whitespace, ignored := true },
       { pattern := .literal "!", kind := .word, refusal := some "No shouting" }]
    let word : Rule := { pattern := .literal "a", kind := .word }
    let bracket : Token := ⟨⟨.lSquare, .str "<", "<"⟩, ⟨0, 1⟩⟩
    let a : Token := ⟨⟨.word, .str "a", "a"⟩, ⟨2, 3⟩⟩
    let e : LexError := { cause := .refused "No shouting", text := "!", offset := 3 }
    ∃ g, Grammar.ofRules rules (some word) = .ok g ∧
      (ofSource g "< a").Enumerates [.ok bracket, .ok a] ∧
      (∃ ts rest, g.Tiles "< a!".toList ts rest ∧ g.Rejects rest e.cause e.text ∧
        (ofSource g "< a!").Enumerates ((Tile.tokens 0 ts).map .ok ++ [.error e])) ∧
      (ofSource g "< a").next.1 = .ok bracket ∧
      (ofSource g "< a").next.2.remaining =
        .ok { tokens := [a], counters := ⟨[("angle", 1)]⟩ } := by
  intro rules word bracket a e
  have hg : ∀ r ∈ rules ++ (some word).toList, r.kind ≠ .endOfText := by decide
  have hl : Grammar.lex ⟨rules, some word, hg⟩ "< a" = .ok
      { tokens := [bracket, a], counters := ⟨[("angle", 1)]⟩ } := by cbv
  have he : Grammar.lex ⟨rules, some word, hg⟩ "< a!" = .error e := by cbv
  have hn : (ofSource ⟨rules, some word, hg⟩ "< a").next.1 = .ok bracket := by cbv
  obtain ⟨ts, rest, ht, hr, _, hx⟩ :=
    (calls_agree ⟨rules, some word, hg⟩ "< a!").right.left _ he
  have hk := (calls_agree ⟨rules, some word, hg⟩ "< a").right.right 1 fun i hi =>
    ⟨bracket, by rwa [Nat.lt_one_iff.mp hi], by decide⟩
  rw [hl] at hk
  exact ⟨_, dif_pos hg, (calls_agree _ "< a").left _ hl,
    ⟨ts, rest, ht, hr, hx⟩, hn, hk⟩

end Lexer

end ArgTree
