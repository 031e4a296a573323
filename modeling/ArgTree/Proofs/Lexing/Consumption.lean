import ArgTree.Proofs.Lexing.Calls

namespace ArgTree

-- The number of bytes that the rules of tiles match, each where the ones before it end.
def Tile.size : List Char → List Tile → Nat
  | _,  []      => 0
  | cs, t :: ts =>
    (t.rule.pattern.matchSize? (String.ofList cs)).getD 0 + size (cs.drop t.text.length) ts

namespace Grammar

variable {g : Grammar}

theorem Cuts.matchSize?_eq (h : g.Cuts t cs rest) :
    t.rule.pattern.matchSize? (String.ofList cs) = some t.text.utf8ByteSize := by
  obtain ⟨_, _, _, _, hm⟩ := h.first
  have ⟨ht, _⟩ := Lexer.take_length_of_eq_append h.splits
  rw [Pattern.matchSize?, String.toList_ofList, hm, Option.map_some, ht, String.ofList_toList]

-- The tiles are a front of the text, and end where a character begins.
theorem Tiles.exists_front (h : g.Tiles cs ts rest) : ∃ front : String,
    cs = front.toList ++ rest ∧ front.length = Tile.width ts ∧
      front.utf8ByteSize = Tile.size cs ts := by
  induction h
  case nil => exact ⟨"", rfl, rfl, rfl⟩
  case cons t cs ds ts rest hc _ hi =>
    obtain ⟨front, rfl, hl, hs⟩ := hi
    have ⟨_, hd⟩ := Lexer.take_length_of_eq_append hc.splits
    refine ⟨t.text ++ front, by simp [hc.splits], ?_, ?_⟩
    · rw [String.length_append, hl, Tile.width_cons]
    · rw [String.utf8ByteSize_append, hs, Tile.size, hc.matchSize?_eq, hd, Option.getD_some]

theorem Tiles.eq_nil (h : g.Tiles [] ts rest) : rest = [] := by
  obtain ⟨_, he, _⟩ := h.exists_front
  exact (List.append_eq_nil_iff.mp he.symm).right

end Grammar

namespace Lexer

variable {l l' : Lexer}

-- The lexer `l'` stands behind tiles that `l` stands in front of. Whether they have ended does not
-- matter.
structure Passes (l : Lexer) (ts : List Tile) (l' : Lexer) : Prop where
  grammar  : l'.grammar = l.grammar
  tiles    : l.grammar.Tiles l.rest ts l'.rest
  offset   : l'.offset = l.offset + Tile.width ts
  counters : l'.counters = ts.foldl Tile.bump l.counters

theorem Passes.refl (l : Lexer) : l.Passes [] l :=
  ⟨rfl, .nil, rfl, rfl⟩

theorem Passes.trans (h : l.Passes ts l') (h' : l'.Passes us l'') : l.Passes (ts ++ us) l'' where
  grammar  := h'.grammar.trans h.grammar
  tiles    := h.tiles.append (h.grammar ▸ h'.tiles)
  offset   := by rw [h'.offset, h.offset, Tile.width_append, Nat.add_assoc]
  counters := by rw [h'.counters, h.counters, List.foldl_append]

theorem Passes.rest_eq_nil (h : l.Passes ts l') (hn : l.rest = []) : l'.rest = [] :=
  Grammar.Tiles.eq_nil (hn ▸ h.tiles)

theorem Steps.passes (h : l.Steps answer l') : ∃ ts, l.Passes ts l' := by
  cases h with
  | ends ht           => exact ⟨_, rfl, ht, rfl, rfl⟩
  | fails ht          => exact ⟨_, rfl, ht, rfl, rfl⟩
  | gives ht _ hc _   => exact ⟨_, rfl, ht.append (.cons hc .nil), rfl, rfl⟩

-- Either way to ask for a token passes over tiles, and changes nothing else.
theorem passes_call (l : Lexer) (c : Call) : ∃ ts, l.Passes ts (l.call c) := by
  have ⟨ts, h⟩ := (steps_next l).passes
  cases c
  case next    => exact ⟨ts, h⟩
  case advance =>
    simp only [call, advance]
    split
    case isTrue  => exact ⟨[], .refl l⟩
    case isFalse =>
      split <;> rename_i he <;> rw [he] at h
      · exact ⟨ts, h.grammar, h.tiles, h.offset, h.counters⟩
      · exact ⟨ts, h⟩

theorem passes_after (l : Lexer) (cs : List Call) : ∃ ts, l.Passes ts (l.after cs) := by
  induction cs generalizing l
  case nil          => exact ⟨[], .refl l⟩
  case cons c cs hi =>
    have ⟨_, h⟩ := passes_call l c
    have ⟨_, h'⟩ := hi (l.call c)
    exact ⟨_, h.trans h'⟩

-- A lexer stands behind tiles from the start of a text on. It has counted them, and has consumed
-- the front of the text that they are. Its offset is the number of characters of the front, and
-- what the rules of the tiles match is the number of its bytes, where the next character begins.
structure Behind (g : Grammar) (source : String) (ts : List Tile) (l : Lexer) : Prop where
  tiles    : g.Tiles source.toList ts l.rest
  consumed : ∃ front, source = front ++ String.ofList l.rest ∧ front.length = l.offset ∧
    front.utf8ByteSize = Tile.size source.toList ts
  boundary : String.Pos.Raw.IsValid source ⟨Tile.size source.toList ts⟩
  counters : ∀ key, l.counters.get? key = Tile.count? key ts

theorem Passes.behind (h : (ofSource g source).Passes ts l) : Behind g source ts l := by
  obtain ⟨front, hs, hl, hb⟩ := h.tiles.exists_front
  have hs : source = front ++ String.ofList l.rest :=
    String.toList_injective (by simpa [ofSource] using hs)
  refine ⟨h.tiles, ⟨front, hs, ?_, hb⟩, ?_, fun key => ?_⟩
  case refine_1 => rw [hl, h.offset, ofSource, Nat.zero_add]
  case refine_2 =>
    exact String.Pos.Raw.isValid_iff_exists_append.mpr ⟨front, _, hs, congrArg _ hb.symm⟩
  case refine_3 => rw [h.counters, ← Tile.get?_foldl_bump]; rfl

theorem rejects_of_next (h : l.next.1 = .error e) :
    l.next.2.grammar.Rejects l.next.2.rest e.cause e.text ∧ l.next.2.offset = e.offset := by
  have hs := steps_of_next h
  generalize l.next.2 = l' at hs
  cases hs with
  | fails _ _ hr => exact ⟨hr, rfl⟩

theorem rest_eq_nil_of_next (h : l.next.1 = .ok t) (hk : t.kind = .endOfText) :
    l.next.2.rest = [] ∧ l.next.2.ended := by
  have hs := steps_of_next h
  generalize l.next.2 = l' at hs
  cases hs with
  | ends           => exact ⟨rfl, rfl⟩
  | gives _ _ hc _ => exact absurd hk (l.grammar.proper _ hc.rule_mem)

-- What cannot be cut off is not consumed, so that there is the same failure again.
theorem after_of_rejects (h : l.grammar.Rejects l.rest cause text) (cs : List Call) :
    l.after cs = { l with ended := (l.after cs).ended } := by
  induction cs generalizing l
  case nil          => rfl
  case cons c cs hi =>
    have hc : l.call c = { l with ended := (l.call c).ended } := by
      cases c
      case next    => rw [call, next_of_rejects h]
      case advance =>
        by_cases he : l.ended
        case pos => rw [call, advance_of_ended he]
        case neg => rw [call, advance_of_rejects (Bool.eq_false_iff.mpr he) h]
    rw [after_cons, hi (l := l.call c) (by rw [hc]; exact h)]
    rw [hc]

theorem next_after_of_rejects (h : l.grammar.Rejects l.rest cause text) (cs : List Call) :
    (l.after cs).next = (.error { cause, text, offset := l.offset }, l.after cs) := by
  have ha := after_of_rejects h cs
  have hr : (l.after cs).grammar.Rejects (l.after cs).rest cause text := by
    rw [ha]
    exact h
  have ho : (l.after cs).offset = l.offset := by rw [ha]
  rw [next_of_rejects hr, ho]

-- Nothing changes any more behind the end of the text.
theorem after_of_nil (h : l.rest = []) (he : l.ended) (cs : List Call) : l.after cs = l := by
  induction cs
  case nil          => rfl
  case cons c cs hi =>
    have hc : l.call c = l := by
      cases c
      case next    => rw [call, next_of_nil h, eq_of_ended he]
      case advance => rw [call, advance_of_ended he]
    rw [after_cons, hc, hi]

theorem next_after_of_nil (h : l.rest = []) (he : l.ended) (cs : List Call) :
    (l.after cs).next = (.ok (.endOfText l.offset), l.after cs) := by
  rw [after_of_nil h he cs, next_of_nil h, eq_of_ended he]

theorem ended_call (he : l.ended = false) (h : (l.call c).ended) :
    (l.call c).rest = [] ∨ c = .advance ∧ ∃ e, l.advance.1 = some (.error e) := by
  have hs := steps_next l
  cases c
  case next =>
    rw [call] at h ⊢
    generalize l.next = r at hs h ⊢
    obtain ⟨_, _⟩ := r
    cases hs with
    | ends  => exact .inl rfl
    | fails => exact absurd (he.symm.trans h) Bool.false_ne_true
    | gives => exact absurd (he.symm.trans h) Bool.false_ne_true
  case advance =>
    rw [call] at h ⊢
    rw [advance, if_neg (Bool.eq_false_iff.mp he)] at h ⊢
    generalize l.next = r at hs h ⊢
    obtain ⟨_, _⟩ := r
    cases hs with
    | ends  => exact .inl rfl
    | fails => exact .inr ⟨rfl, _, rfl⟩
    | gives => exact absurd (he.symm.trans h) Bool.false_ne_true

-- A lexer ends with its text, or with a failure as the last element of a sequence.
theorem ended_after (he : l.ended = false) (h : (l.after cs).ended) : (l.after cs).rest = [] ∨
    ∃ before later e, cs = before ++ .advance :: later ∧
      (l.after before).advance.1 = some (.error e) := by
  induction cs using List.reverseRecOn
  case nil => exact absurd (he.symm.trans h) Bool.false_ne_true
  case append_singleton cs c hi =>
    rw [after_append, after_cons, after_nil] at h ⊢
    by_cases hc : (l.after cs).ended
    case pos =>
      rcases hi hc with hn | ⟨before, later, e, rfl, ha⟩
      case inl =>
        have ⟨_, hp⟩ := passes_call (l.after cs) c
        exact .inl (hp.rest_eq_nil hn)
      case inr => exact .inr ⟨before, later ++ [c], e, by simp, ha⟩
    case neg =>
      rcases ended_call (Bool.eq_false_iff.mpr hc) h with hn | ⟨rfl, e, ha⟩
      case inl => exact .inl hn
      case inr => exact .inr ⟨cs, [], e, rfl, ha⟩

-- However a lexer was called before, it stands behind tiles of its text. It stays in front of what
-- fails, and at the end of the text.
theorem behind_after (g : Grammar) (source : String) (calls : List Call) :
    let l := (ofSource g source).after calls
    (∃ ts, Behind g source ts l) ∧
    (∀ e, l.next.1 = .error e →
      (∃ ts, Behind g source ts l.next.2 ∧ g.Rejects l.next.2.rest e.cause e.text ∧
        l.next.2.offset = e.offset) ∧
      ∀ later, l.next.2.after later = { l.next.2 with ended := (l.next.2.after later).ended } ∧
        (l.next.2.after later).next = (.error e, l.next.2.after later)) ∧
    (∀ t, l.next.1 = .ok t → t.kind = .endOfText → l.next.2.ended ∧
      ∀ later, l.next.2.after later = l.next.2 ∧
        (l.next.2.after later).next = (.ok (.endOfText source.length), l.next.2.after later)) ∧
    (l.ended → l.rest = [] ∨ ∃ before later e, calls = before ++ .advance :: later ∧
      ((ofSource g source).after before).advance.1 = some (.error e)) := by
  intro l
  have hp : ∃ ts, (ofSource g source).Passes ts l := passes_after _ calls
  have hn : ∃ ts, (ofSource g source).Passes ts l.next.2 := by
    have hl : (ofSource g source).after (calls ++ [.next]) = l.next.2 := after_append ..
    exact hl ▸ passes_after _ (calls ++ [.next])
  refine ⟨hp.imp fun _ => Passes.behind, fun e h => ?_, fun t h hk => ?_, ended_after rfl⟩
  case refine_1 =>
    obtain ⟨ts, hn⟩ := hn
    have ⟨hr, ho⟩ := rejects_of_next h
    have hg : l.next.2.grammar = g := hn.grammar
    refine ⟨⟨ts, hn.behind, hg ▸ hr, ho⟩, fun later => ?_⟩
    exact ⟨after_of_rejects hr later, by rw [next_after_of_rejects hr, ho]⟩
  case refine_2 =>
    obtain ⟨ts, hn⟩ := hn
    have ⟨hr, he⟩ := rest_eq_nil_of_next h hk
    have ho : l.next.2.offset = source.length := by
      obtain ⟨front, hs, hl, _⟩ := hn.behind.consumed
      rw [hr, String.ofList_nil, String.append_empty] at hs
      rw [← hl, ← hs]
    exact ⟨he, fun later => ⟨after_of_nil hr he later, by rw [next_after_of_nil hr he, ho]⟩⟩

-- The space in front of what is refused is consumed. The lexer ends there if it is asked for
-- another element, and otherwise at the end of the text.
theorem behind_after_refused :
    let rules : List Rule :=
      [{ pattern := .literal "<", kind := .lSquare, increment := some "angle" },
       { pattern := .literal " ", kind := .whitespace, ignored := true },
       { pattern := .literal "!", kind := .word, refusal := some "No shouting" }]
    let e : LexError := { cause := .refused "No shouting", text := "!", offset := 2 }
    ∃ g, Grammar.ofRules rules none = .ok g ∧
      (let l := (ofSource g "< !").after [.next]
       l.next.1 = .error e ∧ (∃ ts, Behind g "< !" ts l.next.2 ∧ l.next.2.offset = 2) ∧
       (l.next.2.after [.advance, .advance]).next.1 = .error e ∧
       (l.after [.advance]).ended ∧ (l.after [.advance]).rest ≠ [] ∧
       ∃ before later e, [Call.next, .advance] = before ++ .advance :: later ∧
         ((ofSource g "< !").after before).advance.1 = some (.error e)) ∧
      let l := (ofSource g "<").after [.advance]
      l.next.1 = .ok (.endOfText 1) ∧ (l.next.2.after [.advance]).next.1 = .ok (.endOfText 1) := by
  intro rules e
  have hg : ∀ r ∈ rules ++ (none : Option Rule).toList, r.kind ≠ .endOfText := by decide
  have he : ((ofSource ⟨rules, none, hg⟩ "< !").after [.next]).next.1 = .error e := by cbv
  have hd : ((ofSource ⟨rules, none, hg⟩ "< !").after [.next, .advance]).ended := by cbv
  have hr : ((ofSource ⟨rules, none, hg⟩ "< !").after [.next, .advance]).rest = ['!'] := by cbv
  have ht : ((ofSource ⟨rules, none, hg⟩ "<").after [.advance]).next.1 = .ok (.endOfText 1) := by
    cbv
  obtain ⟨-, hf, -⟩ := behind_after ⟨rules, none, hg⟩ "< !" [.next]
  obtain ⟨-, -, -, hx⟩ := behind_after ⟨rules, none, hg⟩ "< !" [.next, .advance]
  obtain ⟨-, -, hs, -⟩ := behind_after ⟨rules, none, hg⟩ "<" [.advance]
  obtain ⟨⟨ts, hb, -, ho⟩, hl⟩ := hf e he
  have hn : ((ofSource ⟨rules, none, hg⟩ "< !").after [.next, .advance]).rest ≠ [] := by
    rw [hr]
    exact List.cons_ne_nil _ _
  refine ⟨_, dif_pos hg, ⟨he, ⟨ts, hb, ho⟩, ?_, hd, hn, (hx hd).resolve_left hn⟩, ht, ?_⟩
  case refine_1 => rw [(hl [.advance, .advance]).right]
  case refine_2 => rw [((hs _ ht rfl).right [.advance]).right]; rfl

end Lexer

end ArgTree
