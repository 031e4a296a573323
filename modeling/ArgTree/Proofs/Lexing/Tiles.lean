import Mathlib
import ArgTree.Lexer

namespace ArgTree

-- A piece of a text: what a rule took, and the value of that.
structure Tile where
  rule  : Rule
  text  : String
  value : Scalar

namespace Grammar

-- The rule `r` takes `n` characters from the start of a text, and no rule before it takes any. The
-- fallback is behind all other rules.
def FirstMatch (g : Grammar) (cs : List Char) (r : Rule) (n : Nat) : Prop :=
  ∃ before behind, g.rules ++ g.fallback.toList = before ++ r :: behind ∧
    (∀ q ∈ before, q.pattern.matchLength? cs = none) ∧ r.pattern.matchLength? cs = some n

-- The tile `t` is cut off at the start of a text.
structure Cuts (g : Grammar) (t : Tile) (cs rest : List Char) : Prop where
  splits   : cs = t.text.toList ++ rest
  nonempty : t.text ≠ ""
  first    : g.FirstMatch cs t.rule t.text.length
  accepts  : t.rule.refusal = none
  converts : t.rule.convert t.text = .ok t.value

-- A text is cut into tiles, as far as `rest`.
inductive Tiles (g : Grammar) : List Char → List Tile → List Char → Prop
  | nil  : Tiles g cs [] cs
  | cons : g.Cuts t cs ds → Tiles g ds ts rest → Tiles g cs (t :: ts) rest

-- No tile can be cut off at the start of a text, for a cause and with a text that is at fault.
inductive Rejects (g : Grammar) : List Char → LexCause → String → Prop
  | unexpected : (∀ r ∈ g.rules ++ g.fallback.toList, r.pattern.matchLength? (c :: cs) = none) →
                 Rejects g (c :: cs) .unexpected (String.singleton c)
  | refused    : cs = text.toList ++ rest → g.FirstMatch cs r text.length →
                 r.refusal = some message → Rejects g cs (.refused message) text
  | conversion : cs = text.toList ++ rest → g.FirstMatch cs r text.length →
                 r.refusal = none → r.convert text = .error reason →
                 Rejects g cs (.conversion reason) text

variable {g : Grammar}

theorem match?_eq_some_iff : g.match? cs = some (r, n) ↔ g.FirstMatch cs r n := by
  rw [match?, List.findSome?_eq_some_iff]
  constructor
  case mp =>
    rintro ⟨before, r', behind, he, hr, hb⟩
    obtain ⟨_, hr, h⟩ := Option.map_eq_some_iff.mp hr
    cases h
    exact ⟨before, behind, he, by simpa using hb, hr⟩
  case mpr =>
    rintro ⟨before, behind, he, hb, hr⟩
    exact ⟨before, r, behind, he, by simp [hr], by simpa using hb⟩

theorem match?_eq_none_iff :
    g.match? cs = none ↔ ∀ r ∈ g.rules ++ g.fallback.toList, r.pattern.matchLength? cs = none := by
  simp only [match?, allRules, List.findSome?_eq_none_iff, Option.map_eq_none_iff]

theorem FirstMatch.length_le (h : g.FirstMatch cs r n) : n ≤ cs.length :=
  have ⟨_, _, _, _, hr⟩ := h
  Pattern.matchLength?_le hr

theorem FirstMatch.pos (h : g.FirstMatch cs r n) : 0 < n :=
  have ⟨_, _, _, _, hr⟩ := h
  Pattern.matchLength?_pos hr

-- What the first rule takes is a front of the text.
theorem FirstMatch.exists_text (h : g.FirstMatch cs r n) :
    ∃ text rest, cs = text.toList ++ rest ∧ text ≠ "" ∧ text.length = n := by
  have hl : (cs.take n).length = n := List.length_take_of_le h.length_le
  have hn : cs.take n ≠ [] := List.ne_nil_of_length_pos (by rw [hl]; exact h.pos)
  refine ⟨String.ofList (cs.take n), cs.drop n, by simp, fun he => hn ?_, by simpa using hl⟩
  simpa using congrArg String.toList he

theorem Tiles.append (h : g.Tiles cs ts ds) (h' : g.Tiles ds us rest) :
    g.Tiles cs (ts ++ us) rest := by
  induction h
  case nil           => exact h'
  case cons hc _ hi  => exact .cons hc (hi h')

theorem Rejects.ne_nil (h : g.Rejects cs cause text) : cs ≠ [] := by
  have hf {r n} (h : g.FirstMatch cs r n) : cs ≠ [] :=
    List.ne_nil_of_length_pos (Nat.lt_of_lt_of_le h.pos h.length_le)
  cases h with
  | unexpected           => exact nofun
  | refused _ h _        => exact hf h
  | conversion _ h _ _   => exact hf h

theorem Cuts.ne_nil (h : g.Cuts t cs rest) : cs ≠ [] := by
  rw [h.splits]
  simp [h.nonempty]

theorem Cuts.rule_mem (h : g.Cuts t cs rest) : t.rule ∈ g.allRules := by
  obtain ⟨_, _, he, _⟩ := h.first
  simp [allRules, he]

theorem Cuts.length_lt (h : g.Cuts t cs rest) : rest.length < cs.length := by
  have := List.length_pos_iff.mpr (mt String.toList_eq_nil_iff.mp h.nonempty)
  rw [h.splits, List.length_append]
  omega

-- Every text that is not empty has a tile at its start, or cannot have one.
theorem cuts_or_rejects (h : cs ≠ []) :
    (∃ t rest, g.Cuts t cs rest) ∨ ∃ cause text, g.Rejects cs cause text := by
  cases hm : g.match? cs
  case none =>
    have ⟨c, cs, he⟩ := List.exists_cons_of_ne_nil h
    subst he
    exact .inr ⟨_, _, .unexpected (match?_eq_none_iff.mp hm)⟩
  case some m =>
    have hf := match?_eq_some_iff.mp hm
    obtain ⟨text, rest, he, hn, hl⟩ := hf.exists_text
    rw [← hl] at hf
    cases hr : m.1.refusal
    case some message => exact .inr ⟨_, _, .refused he hf hr⟩
    case none =>
      cases hv : m.1.convert text
      case error reason => exact .inr ⟨_, _, .conversion he hf hr hv⟩
      case ok value     => exact .inl ⟨⟨m.1, text, value⟩, rest, he, hn, hf, hr, hv⟩

-- So every text is cut into tiles, up to its end or up to where no tile can be cut off.
theorem exists_tiles (g : Grammar) (cs : List Char) : ∃ tiles rest, g.Tiles cs tiles rest ∧
    (rest = [] ∨ ∃ cause text, g.Rejects rest cause text) := by
  by_cases hn : cs = []
  case pos => exact ⟨[], cs, .nil, .inl hn⟩
  case neg =>
    rcases cuts_or_rejects (g := g) hn with ⟨t, ds, hc⟩ | hr
    case inl =>
      have := hc.length_lt
      have ⟨ts, rest, ht, he⟩ := exists_tiles g ds
      exact ⟨t :: ts, rest, .cons hc ht, he⟩
    case inr => exact ⟨[], cs, .nil, .inr hr⟩
termination_by cs.length

end Grammar

namespace Tile

-- The number of characters of some tiles.
def width (ts : List Tile) : Nat :=
  (ts.map (·.text.length)).sum

-- The tokens of tiles that begin at a place. Ignored ones give none.
def tokens (start : Nat) : List Tile → List Token
  | []      => []
  | t :: ts =>
    let stop := start + t.text.length
    let rest := tokens stop ts
    if t.rule.ignored then rest
    else { kind := t.rule.kind, value := t.value, text := t.text, span := ⟨start, stop⟩ } :: rest

def touches (key : String) (t : Tile) : Bool :=
  t.rule.increment = some key || t.rule.decrement = some key

-- The value of a counter behind some tiles, if one of them touched it.
def count? (key : String) (ts : List Tile) : Option Int :=
  if ts.any (touches key) then
    some (ts.countP (·.rule.increment = some key) - ts.countP (·.rule.decrement = some key))
  else
    none

-- What a tile does to the counters.
def bump (c : Counters) (t : Tile) : Counters :=
  (c.addIf t.rule.increment 1).addIf t.rule.decrement (-1)

@[simp]
theorem width_nil : width [] = 0 := rfl

@[simp]
theorem width_cons (t : Tile) (ts : List Tile) : width (t :: ts) = t.text.length + width ts :=
  rfl

theorem width_append (ts us : List Tile) : width (ts ++ us) = width ts + width us := by
  simp [width]

theorem tokens_append (start : Nat) (ts us : List Tile) :
    tokens start (ts ++ us) = tokens start ts ++ tokens (start + width ts) us := by
  induction ts generalizing start
  case nil          => rfl
  case cons t ts hi =>
    simp only [List.cons_append, tokens, hi, width_cons, Nat.add_assoc]
    split <;> rfl

theorem get?_addIf (c : Counters) (key : Option String) (k : String) (delta : Int) :
    (c.addIf key delta).get? k =
      if key = some k then some ((c.get? k).getD 0 + delta) else c.get? k := by
  cases key
  case none => rfl
  case some key =>
    rw [Counters.addIf, Counters.get?_add]
    by_cases hk : key = k
    case pos => simp [hk]
    case neg => simp [hk, Ne.symm hk]

theorem isSome_get?_bump (c : Counters) (t : Tile) (key : String) :
    ((bump c t).get? key).isSome = (touches key t || (c.get? key).isSome) := by
  simp only [bump, get?_addIf, touches]
  by_cases hp : t.rule.increment = some key <;> by_cases hm : t.rule.decrement = some key <;>
    simp [hp, hm]

theorem getD_get?_bump (c : Counters) (t : Tile) (key : String) :
    ((bump c t).get? key).getD 0 = (c.get? key).getD 0 +
      (if t.rule.increment = some key then 1 else 0) -
      (if t.rule.decrement = some key then 1 else 0) := by
  simp only [bump, get?_addIf]
  by_cases hp : t.rule.increment = some key <;> by_cases hm : t.rule.decrement = some key <;>
    simp [hp, hm, Int.sub_eq_add_neg]

theorem isSome_get?_foldl (c : Counters) (ts : List Tile) (key : String) :
    ((ts.foldl bump c).get? key).isSome = (ts.any (touches key) || (c.get? key).isSome) := by
  induction ts generalizing c
  case nil          => rfl
  case cons t ts hi => simp [hi, isSome_get?_bump, ← Bool.or_assoc, Bool.or_comm]

theorem getD_get?_foldl (c : Counters) (ts : List Tile) (key : String) :
    ((ts.foldl bump c).get? key).getD 0 = (c.get? key).getD 0 +
      ts.countP (·.rule.increment = some key) - ts.countP (·.rule.decrement = some key) := by
  induction ts generalizing c
  case nil => simp
  case cons t ts hi =>
    simp only [List.foldl_cons, hi, getD_get?_bump, List.countP_cons, decide_eq_true_eq]
    split <;> split <;> push_cast <;> omega

theorem get?_foldl_bump (ts : List Tile) (key : String) :
    (ts.foldl bump {}).get? key = count? key ts := by
  have hs := isSome_get?_foldl {} ts key
  have hd := getD_get?_foldl {} ts key
  have he : Counters.get? {} key = none := rfl
  rw [count?]
  cases hc : (ts.foldl bump {}).get? key <;> rw [hc, he] at hs hd
  case none   => simp_all
  case some n => simp_all

theorem kind_ne_of_tokens {g : Grammar} (h : g.Tiles cs ts rest) (ht : u ∈ tokens start ts) :
    u.kind ≠ .endOfText := by
  induction h generalizing start
  case nil => contradiction
  case cons t cs ds ts rest hc _ hi =>
    have hp := g.proper t.rule hc.rule_mem
    simp only [tokens] at ht
    split at ht
    case isTrue => exact hi ht
    case isFalse =>
      cases ht
      case head      => exact hp
      case tail _ ht => exact hi ht

end Tile

namespace Lexer

-- The lexer behind some tiles.
def pass (l : Lexer) (ts : List Tile) (rest : List Char) : Lexer :=
  { l with
    rest
    offset   := l.offset + Tile.width ts
    counters := ts.foldl Tile.bump l.counters }

variable {l : Lexer}

theorem take_length_of_eq_append {text : String} {ds : List Char} (h : cs = text.toList ++ ds) :
    cs.take text.length = text.toList ∧ cs.drop text.length = ds := by
  rw [h, ← String.length_toList, List.take_left, List.drop_left]
  exact ⟨rfl, rfl⟩

theorem piece_of_cuts (h : l.grammar.Cuts t l.rest ds) : l.piece = .ok (t.rule,
    { kind := t.rule.kind, value := t.value, text := t.text,
      span := ⟨l.offset, l.offset + t.text.length⟩ }, l.pass [t] ds) := by
  have hm := Grammar.match?_eq_some_iff.mpr h.first
  have ⟨ht, hd⟩ := take_length_of_eq_append h.splits
  simp only [piece, hm, h.accepts, ht, hd, String.ofList_toList, h.converts, String.length_toList]
  rfl

theorem piece_of_rejects (h : l.grammar.Rejects l.rest cause text) :
    l.piece = .error { cause, text, offset := l.offset } := by
  generalize hl : l.rest = cs at h
  cases h with
  | @unexpected c cs h =>
    have hc : String.ofList [c] = String.singleton c := String.singleton_eq_ofList.symm
    simp [piece, hl, Grammar.match?_eq_none_iff.mpr h, fail, hc]
  | refused he hf hr =>
    have hm := Grammar.match?_eq_some_iff.mpr hf
    simp only [piece, hl, hm, hr, fail, (take_length_of_eq_append he).left, String.ofList_toList]
  | conversion he hf hr hv =>
    have hm := Grammar.match?_eq_some_iff.mpr hf
    simp only [piece, hl, hm, hr, fail, (take_length_of_eq_append he).left, String.ofList_toList,
      hv]

theorem collect_of_nil (h : l.rest = []) :
    l.collect = .ok { tokens := [], counters := l.counters } := by
  rw [collect, dif_pos h]

theorem collect_of_rejects (h : l.grammar.Rejects l.rest cause text) :
    l.collect = .error { cause, text, offset := l.offset } := by
  rw [collect, dif_neg h.ne_nil]
  split <;> simp_all [piece_of_rejects h]

-- The tokens of the tiles come first.
theorem collect_of_tiles (h : l.grammar.Tiles l.rest ts ds) :
    l.collect = (l.pass ts ds).collect.map fun lexed =>
      { lexed with tokens := Tile.tokens l.offset ts ++ lexed.tokens } := by
  generalize hg : l.grammar = g at h
  generalize hl : l.rest = cs at h
  induction h generalizing l
  case nil =>
    subst hl
    cases hc : l.collect <;> simp [pass, hc, Except.map, Tile.tokens]
  case cons t cs es ts ds hc _ hi =>
    subst hg hl
    have hp := piece_of_cuts hc
    have ht := hi (l := l.pass [t] es) rfl rfl
    have hs : (l.pass [t] es).pass ts ds = l.pass (t :: ts) ds := by
      simp [pass, Nat.add_assoc]
    rw [hs] at ht
    rw [collect, dif_neg hc.ne_nil]
    split
    case h_1 he => cases hp.symm.trans he
    case h_2 he =>
      cases hp.symm.trans he
      rw [ht]
      cases (l.pass (t :: ts) ds).collect <;> by_cases hr : t.rule.ignored <;>
        simp [hr, Except.map, Tile.tokens, pass]

end Lexer

-- What a lexing pass reports of the tiles of a whole text.
structure Lexed.Reports (lexed : Lexed) (ts : List Tile) : Prop where
  tokens   : lexed.tokens = Tile.tokens 0 ts
  proper   : ∀ t ∈ lexed.tokens, t.kind ≠ .endOfText
  counters : ∀ key, lexed.counters.get? key = Tile.count? key ts

namespace Grammar

variable {g : Grammar} {source : String}

theorem lex_of_tiles (h : g.Tiles source.toList ts []) :
    g.lex source = .ok { tokens := Tile.tokens 0 ts, counters := ts.foldl Tile.bump {} } := by
  have hc := Lexer.collect_of_tiles (l := .ofSource g source) h
  rw [Lexer.collect_of_nil (l := (Lexer.ofSource g source).pass ts []) rfl] at hc
  simpa [Grammar.lex, Lexer.remaining, Except.map, Lexer.pass, Lexer.ofSource] using hc

theorem lex_of_rejects (h : g.Tiles source.toList ts rest) (hr : g.Rejects rest cause text) :
    g.lex source = .error { cause, text, offset := Tile.width ts } := by
  have hc := Lexer.collect_of_tiles (l := .ofSource g source) h
  rw [Lexer.collect_of_rejects (l := (Lexer.ofSource g source).pass ts rest) hr] at hc
  simpa [Grammar.lex, Lexer.remaining, Except.map, Lexer.pass, Lexer.ofSource] using hc

theorem reports_of_tiles (h : g.Tiles cs ts rest) :
    Lexed.Reports { tokens := Tile.tokens 0 ts, counters := ts.foldl Tile.bump {} } ts where
  tokens        := rfl
  proper _ ht   := Tile.kind_ne_of_tokens h ht
  counters key  := Tile.get?_foldl_bump ts key

theorem exists_tiles_of_lex (h : g.lex source = .ok lexed) : ∃ ts, g.Tiles source.toList ts [] ∧
    lexed = { tokens := Tile.tokens 0 ts, counters := ts.foldl Tile.bump {} } := by
  obtain ⟨ts, rest, ht, rfl | ⟨_, _, hr⟩⟩ := exists_tiles g source.toList
  case inl => exact ⟨ts, ht, Except.ok.inj (h.symm.trans (lex_of_tiles ht))⟩
  case inr => cases h.symm.trans (lex_of_rejects ht hr)

theorem exists_rejects_of_lex (h : g.lex source = .error e) : ∃ ts rest,
    g.Tiles source.toList ts rest ∧ g.Rejects rest e.cause e.text ∧ e.offset = Tile.width ts := by
  obtain ⟨ts, rest, ht, rfl | ⟨_, _, hr⟩⟩ := exists_tiles g source.toList
  case inl => cases h.symm.trans (lex_of_tiles ht)
  case inr =>
    cases h.symm.trans (lex_of_rejects ht hr)
    exact ⟨ts, rest, ht, hr, rfl⟩

-- A lexing pass succeeds exactly on the texts that are cut into tiles up to their end, and reports
-- these. Otherwise it fails where the first tile cannot be cut off.
theorem lex_iff_tiles (g : Grammar) (source : String) :
    (∀ lexed, g.lex source = .ok lexed → ∃ ts, g.Tiles source.toList ts [] ∧ lexed.Reports ts) ∧
    (∀ ts, g.Tiles source.toList ts [] → ∃ lexed, g.lex source = .ok lexed ∧ lexed.Reports ts) ∧
    ∀ e, g.lex source = .error e ↔ ∃ ts rest, g.Tiles source.toList ts rest ∧
      g.Rejects rest e.cause e.text ∧ e.offset = Tile.width ts := by
  refine ⟨fun lexed h => ?_, fun ts ht => ⟨_, lex_of_tiles ht, reports_of_tiles ht⟩, fun e => ?_⟩
  case refine_1 =>
    obtain ⟨ts, ht, rfl⟩ := exists_tiles_of_lex h
    exact ⟨ts, ht, reports_of_tiles ht⟩
  case refine_2 =>
    refine ⟨exists_rejects_of_lex, ?_⟩
    rintro ⟨ts, rest, ht, hr, ho⟩
    rw [lex_of_rejects ht hr, ← ho]

-- The rules are tried in order, and white space is dropped.
theorem lex_iff_tiles_angle :
    let rules : List Rule :=
      [{ pattern := .literal "<", kind := .lSquare, increment := some "angle" },
       { pattern := .literal "<a", kind := .word },
       { pattern := .literal " ", kind := .whitespace, ignored := true },
       { pattern := .literal "!", kind := .word, refusal := some "No shouting" }]
    let word : Rule := { pattern := .literal "a", kind := .word }
    ∃ g, Grammar.ofRules rules (some word) = .ok g ∧
      (∃ lexed ts, g.lex "< a" = .ok lexed ∧ g.Tiles "< a".toList ts [] ∧ lexed.Reports ts ∧
        lexed.tokens.map (·.span) = [⟨0, 1⟩, ⟨2, 3⟩] ∧ lexed.counters.get? "angle" = some 1) ∧
      ∃ ts rest, g.Tiles "<a!".toList ts rest ∧ g.Rejects rest (.refused "No shouting") "!" ∧
        2 = Tile.width ts := by
  intro rules word
  have hg : ∀ r ∈ rules ++ (some word).toList, r.kind ≠ .endOfText := by decide
  refine ⟨⟨rules, some word, hg⟩, dif_pos hg, ?_, ?_⟩
  case refine_1 =>
    have h : Grammar.lex ⟨rules, some word, hg⟩ "< a" = .ok
        { tokens := [⟨⟨.lSquare, .str "<", "<"⟩, ⟨0, 1⟩⟩, ⟨⟨.word, .str "a", "a"⟩, ⟨2, 3⟩⟩]
          counters := ⟨[("angle", 1)]⟩ } := by cbv
    obtain ⟨ts, ht, hr⟩ := (lex_iff_tiles ⟨rules, some word, hg⟩ "< a").left _ h
    exact ⟨_, ts, h, ht, hr, rfl, rfl⟩
  case refine_2 =>
    have h : Grammar.lex ⟨rules, some word, hg⟩ "<a!" =
        .error { cause := .refused "No shouting", text := "!", offset := 2 } := by cbv
    exact ((lex_iff_tiles ⟨rules, some word, hg⟩ "<a!").right.right _).mp h

end Grammar

end ArgTree
