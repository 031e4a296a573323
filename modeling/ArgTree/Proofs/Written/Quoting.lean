import ArgTree.Proofs.Written.Rewriting

namespace ArgTree

open Expression ArgTree.Parser

namespace Written

-- What stands between quotes if every `\` protects the character behind it.
def unescaped : List Char → List Char
  | '\\' :: c :: cs => c :: unescaped cs
  | c :: cs         => c :: unescaped cs
  | []              => []

theorem unescaped_cons (h : c ≠ '\\') (cs : List Char) :
    unescaped (c :: cs) = c :: unescaped cs := by
  rw [unescaped]
  simp [h]

theorem toList_escapeQuotes (s : String) : (escapeQuotes s).toList =
    s.toList.flatMap fun c => if c = '"' ∨ c = '\\' then ['\\', c] else [c] :=
  String.toList_ofList

theorem unescaped_escapeQuotes (s : String) : unescaped (escapeQuotes s).toList = s.toList := by
  rw [toList_escapeQuotes]
  induction s.toList
  case nil          => rfl
  case cons c cs hi =>
    rw [List.flatMap_cons]
    split
    case isTrue  => exact congrArg (c :: ·) hi
    case isFalse hc => exact (unescaped_cons (not_or.mp hc).right _).trans (congrArg (c :: ·) hi)

-- A line break is not escaped, so no `\` stands in front of one.
theorem isQuote_quoted (s : String) : IsQuote (quoted s).toList := by
  refine ⟨(escapeQuotes s).toList, by simp [quoted], ?_⟩
  rw [toList_escapeQuotes]
  induction s.toList
  case nil          => exact .nil
  case cons c cs hi =>
    rw [List.flatMap_cons]
    split
    case isTrue hc  => exact .escaped (by rcases hc with rfl | rfl <;> decide) hi
    case isFalse hc => exact .plain (not_or.mp hc).left (not_or.mp hc).right hi

theorem lexes_quoted (s : String) : Lexes (quoted s).toList [⟨.quote, .str (quoted s), quoted s⟩] :=
  lexes_of_isQuote (isQuote_quoted s)

-- What a string is read as where it is an item of a list.
def reread (s : String) : String :=
  if isItem s then s else quoted s

theorem asItem_reread (s : String) : AsItem (string s) 0 (.str (reread s)) := by
  rw [reread]
  split
  case isTrue h  => exact asItem_string h
  case isFalse h =>
    have hs : string s = quoted s := by simp_all [string, isItem]
    rw [hs]
    exact AsElement.asItem ⟨_, lexes_quoted s, rfl, rfl⟩

theorem parse_bracketed_string (s : String) :
    parse ("[" ++ string s ++ "]") = .ok (.list [.str (reread s)]) := by
  rcases (asItem_reread s).asNested.asItem.parse rfl 100 with ⟨_, hp⟩ | ⟨hm, _⟩
  case inl => exact hp
  case inr => exact absurd hm (by decide)

-- A text is cut into a single token.
def IsCutInto (text : String) (t : Token) : Prop :=
  ∃ lexed, grammar.lex text = .ok lexed ∧ lexed.tokens = [t]

theorem exists_isCutInto_iff (p : Lexeme → Prop) :
    (∃ t : Token, IsCutInto s t ∧ p t.toLexeme) ↔ ∃ t, Lexes s.toList [t] ∧ p t := by
  constructor
  case mp =>
    rintro ⟨t, ⟨lexed, hl, ht⟩, hp⟩
    exact ⟨t.toLexeme, Lexes.iff_lex.mpr ⟨lexed, hl, by rw [ht]; rfl⟩, hp⟩
  case mpr =>
    rintro ⟨t, hl, hp⟩
    obtain ⟨lexed, hlex, ht⟩ := Lexes.iff_lex.mp hl
    obtain ⟨u, hu, rfl⟩ := List.map_eq_singleton_iff.mp ht
    exact ⟨u, ⟨lexed, hlex, hu⟩, hp⟩

-- A text is a single quoted token, whose quotes stand around what is read as `s` if every `\`
-- protects the character behind it.
def Quotes (text s : String) : Prop :=
  (∃ t, IsCutInto text t ∧ t.kind = .quote) ∧
    ∃ body, text.toList = '"' :: (body ++ ['"']) ∧ unescaped body = s.toList

theorem quotes_quoted (s : String) : Quotes (quoted s) s :=
  ⟨(exists_isCutInto_iff (·.kind = .quote)).mpr ⟨_, lexes_quoted s, rfl⟩,
    (escapeQuotes s).toList, by simp [quoted], unescaped_escapeQuotes s⟩

theorem isKey_iff : isKey k ↔ ∃ t, Lexes k.toList [t] ∧ t.kind.isElement := by
  constructor
  case mp  => exact fun h => (exists_lexeme_of_isKey h).imp fun _ h => ⟨h.left, h.right.left⟩
  case mpr =>
    rintro ⟨t, hl, he⟩
    have hk : k = t.text := by
      simpa [Lexeme.textOf] using String.toList_injective hl.eq_toList_textOf
    exact hk ▸ isKey_of_lexes (hk ▸ hl) he

-- A key is written as a single element, which has the text of the key if it can.
theorem exists_lexeme_key (k : String) : ∃ t, Lexes (key k).toList [t] ∧ t.kind.isElement ∧
    (t.text = k ↔ isKey k) := by
  by_cases hk : isKey k
  case pos =>
    have ⟨t, hl, he, ht⟩ := exists_lexeme_of_isKey hk
    exact ⟨t, (key_of_isKey hk).symm ▸ hl, he, iff_of_true ht hk⟩
  case neg =>
    have hq : key k = quoted k := by
      simp only [isKey] at hk
      simp only [key]
      split at hk <;> simp_all
    have hq' : isKey (quoted k) := isKey_iff.mpr ⟨_, lexes_quoted k, rfl⟩
    rw [hq]
    refine ⟨_, lexes_quoted k, rfl, iff_of_false (fun hn => hk ?_) hk⟩
    rwa [show quoted k = k from hn] at hq'

-- A text is cut into tokens, of which the first one is no white space.
def Begins (text : String) : Prop :=
  ∃ t ts, Lexes text.toList (t :: ts) ∧ t.kind ≠ .whitespace

theorem AsItem.begins (h : AsItem text height v) : Begins text := by
  obtain ⟨t, ts, hl, hb, _⟩ := h
  exact ⟨t, ts, hl, (kind_ne_of_begins hb).left⟩

variable {spacing : Spacing}

theorem Begins.separated (h : Begins a) (h' : Begins b) : Begins (a ++ spacing.separator ++ b) := by
  obtain ⟨t, ts, hl, ht⟩ := h
  obtain ⟨u, us, hl', hu⟩ := h'
  obtain ⟨m, pad, hj, _⟩ := lexes_separated spacing hl hl' hu
  exact ⟨t, _, hj, ht⟩

theorem Begins.entry (k : String) (h : Begins b) : Begins (key k ++ spacing.equals ++ b) := by
  obtain ⟨t, hl, he, _⟩ := exists_lexeme_key k
  obtain ⟨u, us, hl', hu⟩ := h
  have ht : t.kind ≠ .whitespace := (kind_ne_of_begins (.inr (.inr he))).left
  obtain ⟨front, m, back, hj, _⟩ := lexes_assigned spacing hl ht hl' hu
  exact ⟨t, _, hj, ht⟩

theorem Begins.enclosed_square (h : Lexes s.toList ts) : Begins ("[" ++ s ++ "]") :=
  ⟨_, _, lexes_enclosed (k := .lSquare) (l := .rSquare) (by decide) (by decide) (by decide)
    (by decide) h, nofun⟩

theorem Begins.enclosed_curly (h : Lexes s.toList ts) : Begins ("\x7b" ++ s ++ "\x7d") :=
  ⟨_, _, lexes_enclosed (k := .lCurly) (l := .rCurly) (by decide) (by decide) (by decide)
    (by decide) h, nofun⟩

mutual

theorem begins_nested (v : Value) : Begins (nested spacing v) := by
  cases v
  case str s   => exact (asItem_reread s).begins
  case int n   => exact (asElement_int n).asItem.begins
  case float f => exact (asElement_float f).asItem.begins
  case list vs =>
    by_cases hn : vs = []
    case pos => subst hn; exact .enclosed_square .nil
    case neg =>
      obtain ⟨_, _, hl, _⟩ := begins_items vs hn
      exact .enclosed_square hl
  case map es =>
    by_cases hn : es = []
    case pos => subst hn; exact .enclosed_curly .nil
    case neg =>
      obtain ⟨_, _, hl, _⟩ := begins_entries es hn
      exact .enclosed_curly hl

theorem begins_items (vs : List Value) (hn : vs ≠ []) : Begins (nested.items spacing vs) := by
  match vs with
  | []           => contradiction
  | [v]          => exact begins_nested v
  | v :: w :: vs =>
    exact (begins_nested v).separated (begins_items (w :: vs) (List.cons_ne_nil _ _))

theorem begins_entries (es : List (String × Value)) (hn : es ≠ []) :
    Begins (nested.entries spacing es) := by
  match es with
  | []                => contradiction
  | [(k, v)]          => exact .entry k (begins_nested v)
  | (k, v) :: e :: es =>
    have hb := begins_entries (e :: es) (List.cons_ne_nil _ _)
    exact (Begins.entry k (begins_nested v)).separated hb

end

theorem exists_lexes_value (v : Value) : ∃ ts, Lexes (value spacing v).toList ts := by
  by_cases hv : v = .list []
  case pos => exact ⟨[], hv ▸ .nil⟩
  case neg =>
    obtain ⟨t, ts, hl, _⟩ : Begins (nested spacing v) := begins_nested v
    exact ⟨_, nested_eq_value spacing hv ▸ hl⟩

-- Whatever is written is cut into tokens. A string is one item of a list, and is read as itself
-- unless it must be quoted. A key is one element, and has its own text unless it must be quoted.
theorem texts_confined :
    (∀ s, (∃ lexed, grammar.lex (string s) = .ok lexed) ∧
      ∃ t, parse ("[" ++ string s ++ "]") = .ok (.list [.str t]) ∧
        if isBare s ∨ isVerbatim s ∨ isEscapable s then t = s else Quotes t s) ∧
    (∀ k, ∃ t, IsCutInto (key k) t ∧ t.kind.isElement ∧
      (t.text = k ↔ ∃ u, IsCutInto k u ∧ u.kind.isElement)) ∧
    ∀ spacing v, ∃ lexed, grammar.lex (value spacing v) = .ok lexed := by
  refine ⟨fun s => ⟨?_, reread s, parse_bracketed_string s, ?_⟩, fun k => ?_, fun spacing v => ?_⟩
  case refine_1 =>
    obtain ⟨_, _, hl, _⟩ := (asItem_reread s).begins
    exact (Lexes.iff_lex.mp hl).imp fun _ => And.left
  case refine_2 =>
    have hi : isBare s ∨ isVerbatim s ∨ isEscapable s ↔ isItem s := by simp [isItem, or_assoc]
    split
    case isTrue h  => exact if_pos (hi.mp h)
    case isFalse h =>
      have hq : reread s = quoted s := if_neg (mt hi.mpr h)
      rw [hq]
      exact quotes_quoted s
  case refine_3 =>
    rw [exists_isCutInto_iff (·.kind.isElement), ← isKey_iff]
    exact (exists_isCutInto_iff fun t => t.kind.isElement ∧ (t.text = k ↔ isKey k)).mpr
      (exists_lexeme_key k)
  case refine_4 =>
    obtain ⟨_, hl⟩ : ∃ ts, Lexes (value spacing v).toList ts := exists_lexes_value v
    exact (Lexes.iff_lex.mp hl).imp fun _ => And.left

end Written

end ArgTree
