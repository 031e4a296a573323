import ArgTree.Proofs.Lexing.Tiles
import ArgTree.Proofs.Parser.Marks
import ArgTree.Proofs.Parser.Suffixes
import ArgTree.Proofs.Written.Texts

namespace ArgTree

open Expression ArgTree.Parser Lookahead

-- Rows of kinds in which every closing bracket is the partner of the last opening one that still
-- has none. The partners of those in front of the row are `due`.
inductive Nests : (due : List Kind) → List Kind → Prop
  | done    : Nests [] []
  | opening : k.closing? = some c → Nests (c :: due) ks → Nests due (k :: ks)
  | closing : k.isClosing → Nests due ks → Nests (k :: due) (k :: ks)
  | other   : k.isOpening = false → k.isClosing = false → Nests due ks → Nests due (k :: ks)

-- The lexemes that are left without escapes and what they protect, and without verbatim regions.
-- `value` says that they stand behind a `=`, where a parenthesis begins a list.
def structural (value : Bool) : List Lexeme → List Lexeme
  | []      => []
  | t :: ts =>
    if t.kind = .escape then structural false (ts.drop (Mark.runLength ts))
    else if t.kind = .lParen ∧ !value then structural false (ts.drop (Mark.regionLength 0 ts))
    else t :: structural (t.kind = .equals || value && t.kind = .whitespace) ts
termination_by ts => ts.length
decreasing_by all_goals simp only [List.length_cons, List.length_drop]; omega

-- The brackets that have structure inside are nested.
def Matched (value : Bool) (due : List Kind) (ts : List Lexeme) : Prop :=
  Nests due ((structural value ts).map (·.kind))

namespace Matched

variable {value : Bool}

theorem escape (ht : t.kind = .escape) (hr : Escaped run) (h : Matched false due us) :
    Matched value due (t :: (run ++ us)) := by
  rw [Matched, structural, if_pos ht, Mark.runLength_append hr, List.drop_left]
  exact h

theorem region (ht : t.kind = .lParen) (hb : Balanced .rParen inside) (hu : u.kind = .rParen)
    (h : Matched false due us) : Matched false due (t :: (inside ++ u :: us)) := by
  have hn : Mark.regionLength 0 (inside ++ u :: us) = (inside ++ [u]).length := by
    simp [Mark.regionLength_append hb, Mark.regionLength, hu]
  have hs : inside ++ u :: us = inside ++ [u] ++ us := by simp
  rw [Matched, structural, if_neg (by simp [ht]), if_pos ⟨ht, rfl⟩, hn, hs, List.drop_left]
  exact h

theorem opening (ht : t.kind.closing? = some c) (hv : value = true ∨ t.kind ≠ .lParen)
    (h : Matched false (c :: due) ts) : Matched value due (t :: ts) := by
  have he : t.kind ≠ .escape := fun he => by simp [he, Kind.closing?] at ht
  have hp : ¬(t.kind = .lParen ∧ !value) := by simpa [imp_iff_not_or, or_comm] using hv
  have hf : (decide (t.kind = .equals) || value && decide (t.kind = .whitespace)) = false := by
    cases hk : t.kind <;> simp [hk, Kind.closing?] at ht <;> simp
  rw [Matched, structural, if_neg he, if_neg hp, hf]
  exact .opening ht h

theorem closing (ht : t.kind.isClosing) (h : Matched false due ts) :
    Matched value (t.kind :: due) (t :: ts) := by
  have hs : structural value (t :: ts) = t :: structural false ts := by
    rw [structural]
    cases hk : t.kind <;> simp [hk, Kind.isClosing, Kind.opening?] at ht <;> simp
  rw [Matched, hs]
  exact .closing ht h

-- Only a `=` makes the lexeme behind it a value, and whitespace puts that off.
theorem pass (hk : t.kind.isOpening = false ∧ t.kind.isClosing = false ∧ t.kind ≠ .escape)
    (h : Matched (t.kind = .equals || value && t.kind = .whitespace) due ts) :
    Matched value due (t :: ts) := by
  obtain ⟨ho, hc, he⟩ := hk
  have hp : t.kind ≠ .lParen := fun hp => by simp [hp, Kind.isOpening, Kind.closing?] at ho
  rw [Matched, structural, if_neg he, if_neg (hp ·.left)]
  exact .other ho hc h

theorem whitespace (ht : t.kind = .whitespace) (h : Matched value due ts) :
    Matched value due (t :: ts) :=
  .pass (by rw [ht]; decide) (by simpa [ht] using h)

theorem equals (ht : t.kind = .equals) (h : Matched true due ts) : Matched value due (t :: ts) :=
  .pass (by rw [ht]; decide) (by simpa [ht] using h)

theorem other (ht : t.kind = .comma ∨ t.kind.isElement) (h : Matched false due ts) :
    Matched value due (t :: ts) := by
  cases hk : t.kind <;> simp [hk, Kind.isElement] at ht <;>
    exact .pass (by rw [hk]; decide) (by simpa [hk] using h)

theorem delimiter (ht : t.kind = .whitespace ∨ t.kind = .comma) (h : Matched false due ts) :
    Matched false due (t :: ts) :=
  ht.elim (.whitespace · h) fun ht => .other (.inl ht) h

theorem of_skipWhitespace (h : Matched value due (skipWhitespace ts)) : Matched value due ts :=
  skipWhitespace_induction (P := Matched value due) h fun _ _ ht h => .whitespace ht h

theorem of_skipPadding (h : Matched false due (skipPadding ts)) : Matched false due ts := by
  simp only [skipPadding] at h
  split at h
  case isTrue  => exact h.of_skipWhitespace
  case isFalse => exact h

theorem assignment (ha : assignment? ts = some a) (h : Matched true due a.value) :
    Matched false due ts := by
  cases ts
  case nil => contradiction
  case cons t ts =>
    obtain ⟨u, us, hu, hk, he, rfl, _⟩ := assignment?_eq_some_iff.mp ha
    refine .other (.inr he) (.of_skipWhitespace ?_)
    rw [hu]
    exact .equals hk (.of_skipWhitespace h)

end Matched

theorem structural_eq_self (h : ∀ t ∈ ts, t.kind ≠ .escape ∧ t.kind ≠ .lParen) (value : Bool) :
    structural value ts = ts := by
  induction ts generalizing value
  case nil => rw [structural]
  case cons t ts hi =>
    rw [List.forall_mem_cons] at h
    rw [structural, if_neg h.left.left, if_neg (h.left.right ·.left), hi h.right]

namespace Parser

-- The closing bracket up to which something nested is read.
def Nested.due : Nested → List Kind
  | .list close => [close]
  | .group ..   => []
  | .hash       => [.rCurly]

def KeepsNesting (inner : Inner) : Prop :=
  ∀ what opener ts v us, (inner what opener ts).Yields v us →
    ∀ due, Matched false due us → Matched false (what.due ++ due) ts

variable {inner : Inner}

theorem ReadsAssigned.matched (hk : KeepsNesting inner) (h : ReadsAssigned inner ts v us)
    (hm : Matched false due us) : Matched true due ts := by
  cases h with
  | hash ht h    => exact .opening (by rw [ht]; rfl) (.inl rfl) (hk _ _ _ _ _ h _ hm)
  | list _ ht h  => exact .opening ht (.inl rfl) (hk _ _ _ _ _ h _ hm)
  | element ht   => exact .other (.inr ht) hm

theorem ReadsAssignment.matched (hk : KeepsNesting inner) (h : ReadsAssignment inner ts e us)
    (hm : Matched false due us) : Matched false due ts := by
  cases h with
  | intro ha hv => exact .assignment ha (hv.matched hk hm)

theorem ReadsEntries.matched (hk : KeepsNesting inner) (h : ReadsEntries inner ready es ts fs us)
    (hm : Matched false due us) : Matched false (.rCurly :: due) ts := by
  induction h
  case close hs ht =>
    refine .of_skipWhitespace ?_
    rw [hs, ← ht]
    exact .closing (by rw [ht]; rfl) hm
  case comma hs ht _ hi =>
    refine .of_skipWhitespace ?_
    rw [hs]
    exact .other (.inl ht) (hi hm)
  case entry ha _ hi => exact .of_skipWhitespace (ha.matched hk (hi hm))

theorem ReadsItem.matched (hk : KeepsNesting inner) (h : ReadsItem inner ts v us)
    (hm : Matched false due us) : Matched false due ts := by
  cases h with
  | escape ht hr      => exact .escape ht hr hm
  | verbatim ht hb hu => exact .region ht hb hu hm
  | hash ht h         =>
    exact .opening (by rw [ht]; rfl) (.inr (by simp [ht])) (hk _ _ _ _ _ h _ hm)
  | array ht h        =>
    exact .opening (by rw [ht]; rfl) (.inr (by simp [ht])) (hk _ _ _ _ _ h _ hm)
  | assignment ha     => exact ha.matched hk hm
  | element ht _      => exact .other (.inr ht) hm

-- The closing bracket up to which a level is read. A group leaves it to the level around it.
def closingOf : Close → List Kind
  | .bracket k => [k]
  | _          => []

theorem closingOf_of_not_bracket (h : ∀ k, close ≠ .bracket k) : closingOf close = [] := by
  cases close
  case bracket k => exact absurd rfl (h k)
  all_goals rfl

theorem ReadsItems.matched (hk : KeepsNesting inner) (h : ReadsItems inner l last ts vs us)
    (hm : Matched false due us) : Matched false (closingOf l.close ++ due) ts := by
  induction h
  case ends he _ =>
    rw [closingOf_of_not_bracket fun _ => Level.not_bracket_of_endsAt he]
    exact hm
  case closes ht hc _ =>
    rw [hc]
    exact .closing ht hm
  case delimiter hd ht _ hi =>
    rw [← Level.close_of_delimiter hd]
    exact .delimiter ht (hi hm)
  case regroup hd ht hg _ hi =>
    rw [← Level.close_of_delimiter hd]
    exact .delimiter ht (hk _ _ _ _ _ hg _ (hi hm))
  case lacks hb =>
    rw [closingOf_of_not_bracket hb]
    exact hm
  case item hi hr _ ih =>
    rw [← Level.close_of_item hi]
    exact hr.matched hk (.of_skipPadding (ih hm))

theorem ReadsLevel.matched (hk : KeepsNesting inner) (h : ReadsLevel inner close first ts vs us)
    (hm : Matched false due us) : Matched false (closingOf close ++ due) ts := by
  have hc : (Level.start close).close = close := by cases close <;> rfl
  exact .of_skipWhitespace (hc ▸ h.items.matched hk hm)

theorem nested_keepsNesting (depth : Nat) : KeepsNesting (nested depth) := by
  intro what opener ts v us h
  refine nested_induction (fun d hi what ts v us h due hm => ?_) h
  cases h
  case list h  => exact h.matched hi hm
  case group h => exact h.matched hi hm
  case hash h  => exact h.matched hi hm

end Parser

namespace Kind

-- The counter of a family of brackets.
def family? : Kind → Option String
  | lParen | rParen   => some "paren"
  | lCurly | rCurly   => some "curly"
  | lSquare | rSquare => some "square"
  | _                 => none

def opens (key : String) (k : Kind) : Bool :=
  k.isOpening && k.family? = some key

def closes (key : String) (k : Kind) : Bool :=
  k.isClosing && k.family? = some key

theorem closes_of_closing? {k c : Kind} (h : k.closing? = some c) (key : String) :
    c.closes key = k.opens key ∧ k.closes key = false := by
  cases k <;> cases h <;> exact ⟨rfl, rfl⟩

theorem opens_of_isClosing {k : Kind} (h : k.isClosing) (key : String) : k.opens key = false := by
  cases k <;> first | rfl | contradiction

end Kind

-- Each family has as many closing brackets as opening ones and due ones.
theorem Nests.count_eq (h : Nests due ks) (key : String) :
    ks.countP (Kind.opens key) + due.countP (Kind.closes key) = ks.countP (Kind.closes key) := by
  induction h
  case done => rfl
  case opening hk _ hi =>
    have ⟨ho, hc⟩ := Kind.closes_of_closing? hk key
    rw [List.countP_cons, ho] at hi
    rw [List.countP_cons, List.countP_cons, hc]
    simp only [Bool.false_eq_true, ↓reduceIte]
    omega
  case closing hk _ hi =>
    have ho := Kind.opens_of_isClosing hk key
    rw [List.countP_cons, List.countP_cons, List.countP_cons, ho]
    simp only [Bool.false_eq_true, ↓reduceIte]
    omega
  case other ho hc _ hi => simpa [List.countP_cons, Kind.opens, Kind.closes, ho, hc] using hi

theorem Entries.get?_of_mem {es : Entries α} (hn : (keys es).Nodup) (h : e ∈ es) :
    get? es e.1 = some e.2 := by
  induction es
  case nil => contradiction
  case cons d es hi =>
    have ⟨hd, hn⟩ := List.nodup_cons.mp hn
    rcases List.mem_cons.mp h with rfl | h
    case inl => simp [get?]
    case inr =>
      have hde : d.1 ≠ e.1 := fun hde => hd (List.mem_map.mpr ⟨e, h, hde.symm⟩)
      simpa [get?, hde] using hi hn h

namespace Tile

theorem rule_mem_of_tiles {g : Grammar} (h : g.Tiles cs ts rest) (ht : t ∈ ts) :
    t.rule ∈ g.allRules := by
  induction h
  case nil => contradiction
  case cons hc _ hi =>
    rcases List.mem_cons.mp ht with rfl | ht
    case inl => exact hc.rule_mem
    case inr => exact hi ht

theorem map_kind_tokens (h : ∀ t ∈ ts, t.rule.ignored = false) (start : Nat) :
    (tokens start ts).map (·.kind) = ts.map (·.rule.kind) := by
  induction ts generalizing start
  case nil => rfl
  case cons t ts hi =>
    rw [List.forall_mem_cons] at h
    simp [tokens, h.left, hi h.right]

theorem nodup_keys_foldl_bump (ts : List Tile) (h : (Entries.keys c.entries).Nodup) :
    (Entries.keys (ts.foldl bump c).entries).Nodup := by
  have ha {c : Counters} {key delta} (h : (Entries.keys c.entries).Nodup) :
      (Entries.keys (c.addIf key delta).entries).Nodup := by
    cases key
    case none => exact h
    case some => exact Entries.nodup_keys_insert h _ _
  induction ts generalizing c
  case nil => exact h
  case cons t ts hi => exact hi (ha (ha h))

end Tile

namespace Expression

-- The rules count the brackets of each family.
theorem counts_of_mem (h : r ∈ grammar.allRules) (key : String) :
    decide (r.increment = some key) = r.kind.opens key ∧
      decide (r.decrement = some key) = r.kind.closes key := by
  have hr : ∀ r ∈ grammar.allRules,
      r.increment = (if r.kind.isOpening then r.kind.family? else none) ∧
        r.decrement = if r.kind.isClosing then r.kind.family? else none := by decide +kernel
  have ⟨hi, hd⟩ := hr r h
  rw [hi, hd, Kind.opens, Kind.closes]
  cases r.kind.isOpening <;> cases r.kind.isClosing <;> simp

theorem Lexes.mem_of_mem (h : Lexes cs ts) (ht : t ∈ ts) (hc : c ∈ t.text.toList) : c ∈ cs := by
  induction h
  case nil => contradiction
  case cons hi =>
    rcases List.mem_cons.mp ht with rfl | ht
    case inl => exact List.mem_append_left _ hc
    case inr => exact List.mem_append_right _ (hi ht)

-- Without `\` and `(` there is nothing that makes a bracket text.
theorem Lexes.kind_ne (h : Lexes cs ts) (he : '\\' ∉ cs) (hp : '(' ∉ cs) :
    ∀ t ∈ ts, t.kind ≠ .escape ∧ t.kind ≠ .lParen := by
  intro t ht
  obtain ⟨_, htk⟩ := h.takes_of_mem ht
  constructor
  case left =>
    intro hk
    obtain ⟨r, hr, hl⟩ := htk.language_text hk
    simp only [language, hr] at hl
    exact he (h.mem_of_mem ht (by simp [hl]))
  case right =>
    intro hk
    obtain ⟨r, hr, hl⟩ := htk.language_text hk
    simp only [language, hr] at hl
    exact hp (h.mem_of_mem ht (by simp [hl]))

end Expression

namespace TokenSequence

variable {s : TokenSequence} {text : String}

-- The counters are balanced if the brackets of all tokens are nested.
theorem isBalanced_of_nests (hs : ofSource text = .ok s) (h : Nests [] (s.lexemes.map (·.kind))) :
    s.counters.isBalanced := by
  simp only [ofSource, ofGrammar] at hs
  split at hs
  case h_2 => contradiction
  case h_1 lexed hl =>
    cases hs
    obtain ⟨ts, ht, rfl⟩ := Grammar.exists_tiles_of_lex hl
    have hm := fun t => Tile.rule_mem_of_tiles (t := t) ht
    have hk : (Tile.tokens 0 ts).map (·.kind) = ts.map (·.rule.kind) :=
      Tile.map_kind_tokens (fun t ht => not_ignored_of_mem (hm t ht)) 0
    have hcount (key) : ts.countP (·.rule.increment = some key) =
        ts.countP (·.rule.decrement = some key) := by
      have hn := h.count_eq key
      rw [lexemes, List.map_map, show (Lexeme.kind ∘ Token.toLexeme) = (·.kind) from rfl, hk,
        List.countP_map, List.countP_map, List.countP_nil, Nat.add_zero] at hn
      have ho : ts.countP (·.rule.increment = some key) =
          ts.countP (Kind.opens key ∘ (·.rule.kind)) := by
        refine List.countP_congr fun t ht => ?_
        rw [(counts_of_mem (hm t ht) key).left, Function.comp_apply]
      have hc : ts.countP (·.rule.decrement = some key) =
          ts.countP (Kind.closes key ∘ (·.rule.kind)) := by
        refine List.countP_congr fun t ht => ?_
        rw [(counts_of_mem (hm t ht) key).right, Function.comp_apply]
      rw [ho, hc]
      exact hn
    rw [Counters.isBalanced, List.all_eq_true]
    intro e he
    have hg := Entries.get?_of_mem (Tile.nodup_keys_foldl_bump (c := {}) ts List.nodup_nil) he
    have hc := (Tile.get?_foldl_bump ts e.1).symm.trans hg
    simp only [Tile.count?, hcount, Int.sub_self] at hc
    split at hc <;> simp at hc
    simp [← hc]

-- What is read has matched brackets, apart from those that are text. So the counters are balanced
-- if no bracket can be text.
theorem nests_of_parse (hs : ofSource text = .ok s) (h : s.parse o = .ok v) :
    Nests [] ((structural false (s.lexemesFrom o.start)).map (·.kind)) ∧
      (o.start = 0 → '\\' ∉ text.toList → '(' ∉ text.toList → s.counters.isBalanced) := by
  obtain ⟨vs, hl, _⟩ := parse_eq_ok_iff.mp h
  have hn : Matched false [] [] := by
    rw [Matched, structural]
    exact .done
  have hm : Matched false [] (s.lexemesFrom o.start) :=
    hl.matched (nested_keepsNesting o.maxDepth) hn
  refine ⟨hm, fun ho he hp => isBalanced_of_nests hs ?_⟩
  have hn := structural_eq_self ((lexes_of_ofSource hs).kind_ne he hp) false
  rwa [Matched, ho, lexemesFrom, List.drop_zero, hn] at hm

-- The bracket that is escaped and the one in parentheses have no partners.
theorem nests_of_parse_escaped :
    (∃ s v, ofSource "\\] (a\x7b) [b]" = .ok s ∧ s.parse = .ok v ∧
      (structural false s.lexemes).map (·.kind) =
        [.whitespace, .whitespace, .lSquare, .word, .rSquare] ∧
      Nests [] ((structural false s.lexemes).map (·.kind))) ∧
    ∃ s v, ofSource "\x7bk=[b]\x7d" = .ok s ∧ s.parse = .ok v ∧ s.counters.isBalanced := by
  constructor
  case left =>
    have hk :
        (ofSource "\\] (a\x7b) [b]").map (fun s => (structural false s.lexemes).map (·.kind)) =
          .ok [.whitespace, .whitespace, .lSquare, .word, .rSquare] := by cbv
    have hp : ArgTree.parse "\\] (a\x7b) [b]" =
        .ok (.list [.str "]", .str "(a\x7b)", .list [.str "b"]]) := by cbv
    cases hs : ofSource "\\] (a\x7b) [b]" <;> simp only [ArgTree.parse, hs] at hk hp
    case error => contradiction
    case ok s  => exact ⟨s, _, rfl, hp, Except.ok.inj hk, (nests_of_parse hs hp).left⟩
  case right =>
    have hp : ArgTree.parse "\x7bk=[b]\x7d" = .ok (.map [("k", .list [.str "b"])]) := by cbv
    cases hs : ofSource "\x7bk=[b]\x7d" <;> simp only [ArgTree.parse, hs] at hp
    case error => contradiction
    case ok s  =>
      exact ⟨s, _, rfl, hp, (nests_of_parse hs hp).right rfl (by decide) (by decide)⟩

end TokenSequence

end ArgTree
