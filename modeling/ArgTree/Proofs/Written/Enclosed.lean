import ArgTree.Proofs.Parser.Closings
import ArgTree.Proofs.Parser.WellFormed
import ArgTree.Proofs.Written.Items

namespace ArgTree

open Expression ArgTree.Parser Lookahead

namespace Level

variable {l l' : Level}

-- The state in a level that something else ends.
def within (close : Close) (l : Level) : Level :=
  { l with close }

theorem delimiter_within (h : l.delimiter k = .ok (v, l')) (close : Close) :
    (l.within close).delimiter k = .ok (v, l'.within close) := by
  have hd : (l.within close).delimiter k =
      (l.delimiter k).map (Prod.map id (within close)) := by
    simp only [delimiter, within]
    split <;> first | rfl | (rw [apply_ite (Except.map _)]; rfl)
  rw [hd, h]
  rfl

theorem item_within (h : l.item k = (v, l')) (close : Close) :
    (l.within close).item k = (v, l'.within close) := by
  have hi : (l.within close).item k = (l.item k).map id (within close) := by
    rw [item, item, apply_ite (Prod.map id (within close))]
    rfl
  rw [hi, h]
  rfl

theorem endsAt_within_endOfText (h : k ≠ .endOfText) : (l.within .endOfText).endsAt k = false := by
  simpa [endsAt, within] using h

end Level

namespace Parser

variable {inner : Inner} {u : Lexeme}

-- What is read up to the end is read up to a closing bracket as well.
theorem ReadsItems.enclose (hi : IgnoresClosing inner) (h : ReadsItems inner l last ts vs us)
    (hl : l.close = .endOfText) (hn : us = []) (hu : u.kind.isClosing) (ws : List Lexeme) :
    ReadsItems inner (l.within (.bracket u.kind)) last (ts ++ u :: ws) vs ws := by
  have hw : (kind (u :: ws)).isClosing := hu
  induction h
  case ends hd =>
    subst hn
    exact .closes hu rfl hd
  case closes hc _ => simp [hl] at hc
  case delimiter hd hk _ ih =>
    rw [← Level.close_of_delimiter hd] at hl
    exact .delimiter rfl (Level.delimiter_within hd _) hk (ih hl hn)
  case regroup hd hk hg _ ih =>
    rw [← Level.close_of_delimiter hd] at hl
    exact .regroup rfl (Level.delimiter_within hd _) hk ((hi _ _ _ _ _ _ hw).mpr hg) (ih hl hn)
  case lacks => contradiction
  case item hit hv _ ih =>
    rw [← Level.close_of_item hit] at hl
    have ih := ih hl hn
    rw [← skipPadding_append hw] at ih
    exact .item rfl (Level.item_within hit _) (hv.append hi hw) ih

-- A bracket level reads the closing bracket.
theorem ReadsItems.exists_closing (hs : LeavesSuffix inner) (h : ReadsItems inner l last ts vs us)
    (hl : l.close = .bracket k) : ∃ u, u :: us <:+ ts := by
  induction h
  case ends he _ => exact absurd hl (Level.not_bracket_of_endsAt he)
  case closes => exact ⟨_, List.suffix_rfl⟩
  case delimiter hd _ _ ih =>
    obtain ⟨u, hu⟩ := ih ((Level.close_of_delimiter hd).trans hl)
    exact ⟨u, hu.trans (List.suffix_cons ..)⟩
  case regroup hd _ hg _ ih =>
    obtain ⟨u, hu⟩ := ih ((Level.close_of_delimiter hd).trans hl)
    exact ⟨u, hu.trans <| (hs _ _ _ _ _ hg).trans (List.suffix_cons ..)⟩
  case lacks hb => exact absurd hl (hb k)
  case item hit hv _ ih =>
    obtain ⟨u, hu⟩ := ih ((Level.close_of_item hit).trans hl)
    exact ⟨u, hu.trans <| (skipPadding_suffix _).trans (hv.suffix hs)⟩

theorem exists_append_of_cons_suffix {ts us ws : List Lexeme} (h : t :: ws <:+ us)
    (hu : us <:+ ts ++ u :: ws) : ∃ vs, us = vs ++ u :: ws := by
  have hc : t :: ws <:+ u :: ws :=
    List.suffix_of_suffix_length_le (h.trans hu) (List.suffix_append ..) (by simp)
  obtain ⟨vs, rfl⟩ := hc.eq_of_length (by simp) ▸ h
  exact ⟨vs, rfl⟩

-- What is read up to a closing bracket is all there is if the bracket is not there.
theorem ReadsItems.of_enclosed (hs : LeavesSuffix inner) (hi : IgnoresClosing inner)
    (h : ReadsItems inner l last (ts ++ u :: ws) vs ws) (hl : l.close = .bracket u.kind)
    (hu : u.kind.isClosing) : ReadsItems inner (l.within .endOfText) last ts vs [] := by
  have hw : (kind (u :: ws)).isClosing := hu
  generalize hx : ts ++ u :: ws = xs at h
  induction h generalizing ts
  case ends he _ => exact absurd hl (Level.not_bracket_of_endsAt he)
  case closes hd =>
    have hn : ts = [] := by simpa using congrArg List.length hx
    subst hn
    exact .ends rfl hd
  case delimiter hd hk _ ih =>
    obtain ⟨ts', rfl, rfl⟩ := exists_cons_of_append hw hx (Kind.not_isClosing_of_delimits hk)
    rw [← Level.close_of_delimiter hd] at hl
    have hn := Kind.ne_endOfText_of_delimits hk
    exact .delimiter (Level.endsAt_within_endOfText hn) (Level.delimiter_within hd _) hk
      (ih hl hw rfl)
  case regroup hd hk hg hr ih =>
    obtain ⟨ts', rfl, rfl⟩ := exists_cons_of_append hw hx (Kind.not_isClosing_of_delimits hk)
    rw [← Level.close_of_delimiter hd] at hl
    obtain ⟨_, hc⟩ := hr.exists_closing hs hl
    obtain ⟨us, rfl⟩ := exists_append_of_cons_suffix hc (hs _ _ _ _ _ hg)
    have hn := Kind.ne_endOfText_of_delimits hk
    have hg := (hi _ _ _ _ _ _ hw).mp hg
    exact .regroup (Level.endsAt_within_endOfText hn) (Level.delimiter_within hd _) hk hg
      (ih hl hw rfl)
  case lacks hb => exact absurd hl (hb _)
  case item hit hv hr ih =>
    have ⟨_, _, hc, hn⟩ := kind_ne_of_begins hv.begins
    obtain ⟨ts', rfl, rfl⟩ := exists_cons_of_append hw hx hc
    rw [← Level.close_of_item hit] at hl
    obtain ⟨_, hc⟩ := hr.exists_closing hs hl
    rw [← List.cons_append] at hv
    have hc := hc.trans (skipPadding_suffix _)
    obtain ⟨us, rfl⟩ := exists_append_of_cons_suffix hc (hv.suffix hs)
    exact .item (Level.endsAt_within_endOfText hn) (Level.item_within hit _) (hv.of_append hi hw)
      (ih hl hw (skipPadding_append hw us).symm)

-- The top level and a bracket level read the same, unless there is nothing to be read.
theorem readsLevel_endOfText_iff (hs : LeavesSuffix inner) (hi : IgnoresClosing inner)
    (hu : u.kind.isClosing) (ht : skipWhitespace ts ≠ []) :
    ReadsLevel inner .endOfText none ts vs [] ↔
      ReadsLevel inner (.bracket u.kind) none (ts ++ u :: ws) vs ws := by
  have hw : (kind (u :: ws)).isClosing := hu
  have hk : kind (skipWhitespace (ts ++ u :: ws)) = kind (skipWhitespace ts) := by
    rw [skipWhitespace_append hw, kind_append_of_ne_nil ht]
  constructor
  case mp =>
    rintro ⟨hm, hc, hr⟩
    refine ⟨hk ▸ hm, hk ▸ hc, ?_⟩
    rw [skipWhitespace_append hw]
    exact hr.enclose hi rfl rfl hu ws
  case mpr =>
    rintro ⟨hm, hc, hr⟩
    refine ⟨hk ▸ hm, hk ▸ hc, ?_⟩
    rw [skipWhitespace_append hw] at hr
    exact hr.of_enclosed hs hi rfl hu

theorem nested_list_yields_iff (hu : u.kind.isClosing) (ht : skipWhitespace ts ≠ []) :
    (nested (m + 1) (.list u.kind) opener (ts ++ u :: ws)).Yields (.list l) ws ↔
      ReadsLevel (nested m) .endOfText none ts l [] := by
  rw [readsLevel_endOfText_iff (nested_leavesSuffix m) (nested_ignoresClosing m) hu ht,
    nested_yields_iff]
  constructor
  case mp =>
    rintro ⟨_, hd, h⟩
    cases hd
    cases h with
    | list h => exact h
  case mpr => exact fun h => ⟨m, rfl, .list h⟩

-- Nothing follows the only item of a text.
theorem ReadsItems.eq_nil_of_single
    (h : ReadsItems inner (.begun .endOfText .undetermined) [v] ts [w] []) : ts = [] ∧ v = w := by
  cases h with
  | ends _ _ => exact ⟨rfl, rfl⟩
  | closes _ hc _ => contradiction
  | delimiter _ hd _ h =>
    have ⟨hi, hd⟩ := Level.delimited_of_delimiter hd
    exact absurd (h.length_lt hi hd) (by simp)
  | regroup _ hd _ _ _ => exact absurd (Level.eq_begun_of_regroup hd).right.left (by simp)
  | item _ _ _ h => exact absurd h.length_le (by simp)

-- What ends with a closing bracket is not blank.
theorem eq_nil_of_skipPadding (h : skipPadding us = []) (hs : us <:+ ts ++ [u])
    (hu : u.kind.isClosing) : us = [] := by
  have hw : ∀ t ∈ us, t.kind = .whitespace := by
    rw [← skipWhitespace_eq_nil_iff]
    simp only [skipPadding] at h
    split at h
    case isTrue  => exact h
    case isFalse => rw [h]; rfl
  rcases List.eq_nil_or_concat us with rfl | ⟨vs, t, rfl⟩
  case inl => rfl
  case inr =>
    rw [List.concat_eq_append] at hs hw
    obtain rfl : t = u := by
      obtain ⟨xs, hx⟩ := hs
      rw [← List.append_assoc] at hx
      exact (List.cons.inj (List.append_inj_right' hx rfl)).left
    rw [hw t (by simp)] at hu
    contradiction

-- A text that is one array has the value of the array as its only item.
theorem readsLevel_array_iff (ho : o.kind = .lSquare) (hu : u.kind = .rSquare)
    (hs : LeavesSuffix inner) :
    ReadsLevel inner .endOfText none (o :: (ts ++ [u])) [v] [] ↔
      (inner (.list .rSquare) o (ts ++ [u])).Yields v [] := by
  constructor
  case mp =>
    intro h
    have hi := h.items
    rw [skipWhitespace_of_kind (by simp [kind, ho])] at hi
    cases hi with
    | delimiter _ _ hk => simp [ho] at hk
    | regroup _ _ hk => simp [ho] at hk
    | item _ hit hv hr =>
      cases hit
      obtain ⟨hn, rfl⟩ := hr.eq_nil_of_single
      generalize hx : ts ++ [u] = xs at hv
      cases hv with
      | escape hk     => simp [ho] at hk
      | verbatim hk   => simp [ho] at hk
      | hash hk       => simp [ho] at hk
      | element hk    => simp [ho, Kind.isElement] at hk
      | assignment ha =>
        obtain ⟨ha, _⟩ := ha
        simpa [ho, Kind.isElement] using isElement_of_assignment? ha
      | array _ h     =>
        subst hx
        cases eq_nil_of_skipPadding hn (hs _ _ _ _ _ h) (by rw [hu]; rfl)
        exact h
  case mpr => exact fun h => (ReadsItem.array ho h).level rfl

section

variable {t e o c a b : Lexeme} (ht : t.kind.isElement) (he : e.kind = .equals)
  (ho : o.kind.closing? = some c.kind) (hn : o.kind ≠ .lCurly) (hs : skipWhitespace ts ≠ [])
  (h : ReadsLevel (nested m) .endOfText none ts l [])

include ht he ho hn hs h

-- A key, an `=` and what the top level reads in brackets.
theorem readsAssignment_list (ws : List Lexeme) :
    ReadsAssignment (nested (m + 1)) (t :: e :: o :: (ts ++ c :: ws)) (t.text, .list l) ws := by
  have hc : c.kind.isClosing := Option.isSome_of_eq_some (Kind.closing?_eq_some_iff.mp ho)
  have hb : o.kind.isOpening := Option.isSome_of_eq_some ho
  have hw : skipWhitespace (o :: (ts ++ c :: ws)) = o :: (ts ++ c :: ws) :=
    skipWhitespace_of_kind (kind_ne_of_begins (.inr (.inl hb))).left
  have hw' : skipWhitespace (e :: o :: (ts ++ c :: ws)) = e :: o :: (ts ++ c :: ws) :=
    skipWhitespace_of_kind (by simp [kind, he])
  have ha := assignment?_eq_some_iff.mpr ⟨e, _, hw', he, ht, rfl, .inr (by rwa [hw])⟩
  refine .intro ha ?_
  rw [hw]
  exact .list hn ho ((nested_list_yields_iff hc hs).mpr h)

theorem readsLevel_assignment : ReadsLevel (nested (m + 1)) .endOfText none
    (t :: e :: o :: (ts ++ [c])) [.map [(t.text, .list l)]] [] :=
  (ReadsItem.assignment (readsAssignment_list ht he ho hn hs h [])).level rfl

theorem readsLevel_hash (ha : a.kind = .lCurly) (hb : b.kind = .rCurly) :
    ReadsLevel (nested (m + 2)) .endOfText none
      (a :: (t :: e :: o :: (ts ++ [c]) ++ [b])) [.map [(t.text, .list l)]] [] := by
  have hw : skipWhitespace (t :: e :: o :: (ts ++ c :: [b])) = t :: e :: o :: (ts ++ c :: [b]) :=
    skipWhitespace_of_kind (kind_ne_of_begins (.inr (.inr ht))).left
  have hw' : skipWhitespace [b] = [b] := skipWhitespace_of_kind (by simp [kind, hb])
  have hr := readsAssignment_list ht he ho hn hs h [b]
  have hes : ReadsEntries (nested (m + 1)) true [] (t :: e :: o :: (ts ++ c :: [b]))
      [(t.text, .list l)] [] := .entry (hw.symm ▸ hr) (.close hw' hb)
  have hts : t :: e :: o :: (ts ++ [c]) ++ [b] = t :: e :: o :: (ts ++ c :: [b]) := by simp
  rw [hts]
  exact (ReadsItem.hash ha (nested_yields_iff.mpr ⟨_, rfl, .hash hes⟩)).level rfl

end

end Parser

namespace Expression

-- What a text is cut into depends on the text alone.
theorem Takes.eq_of_lexes (h : Takes u cs) (ht : Lexes u.text.toList [t]) : t = u := by
  have hu : Lexes (u.text.toList ++ []) [u] := .cons (h.of_isPrefix List.nil_prefix) .nil
  rw [List.append_nil] at hu
  exact (List.cons.inj (ht.unique hu)).left

namespace Lexes

theorem exists_cons_of_special (h : Lexes (c :: cs) ts) (ht : Lexes [c] [t]) (hc : c ∈ special)
    (hq : c ≠ '"') : ∃ us, ts = t :: us ∧ Lexes cs us := by
  generalize hx : c :: cs = xs at h
  cases h
  case nil => contradiction
  case cons u cs' us hu hus =>
    have ⟨r, _, hl⟩ := hu.language_text rfl
    have ⟨d, ds, hd⟩ := List.exists_cons_of_ne_nil (ne_nil_of_takes hu)
    rw [hd, List.cons_append] at hx
    obtain ⟨rfl, rfl⟩ := List.cons.inj hx
    have he := eq_singleton_of_edge hl (.inl (by simp [hd])) hc hq
    obtain rfl := (List.cons.inj (hd.symm.trans he)).right
    have hut : t = u := hu.eq_of_lexes (by rwa [he])
    exact ⟨us, by rw [hut], hus⟩

theorem exists_concat_of_special (h : Lexes (cs ++ [c]) ts) (ht : Lexes [c] [t]) (hc : c ∈ special)
    (hq : c ≠ '"') : ∃ us, ts = us ++ [t] ∧ Lexes cs us := by
  have ⟨u, hu, r, _, hl, hg⟩ := h.exists_getLast (c := c) (by simp)
  have he := eq_singleton_of_edge hl (.inr hg) hc hq
  obtain ⟨us, rfl⟩ := List.getLast?_eq_some_iff.mp hu
  have ⟨_, hk⟩ := h.takes_of_mem (t := u) (by simp)
  have hcs : cs = (Lexeme.textOf us).toList := by
    have hx := h.eq_toList_textOf
    rw [toList_textOf_append, toList_textOf_cons, he] at hx
    exact List.append_cancel_right (hx.trans (by simp [Lexeme.textOf]))
  have hut : t = u := hk.eq_of_lexes (by rwa [he])
  exact ⟨us, by rw [hut], hcs ▸ h.of_append_left⟩

-- A text between brackets is cut into the brackets and what it is cut into by itself.
theorem bracketed_iff {s : String} : Lexes ("[" ++ s ++ "]").toList xs ↔ ∃ ts, Lexes s.toList ts ∧
    xs = ⟨.lSquare, .str "[", "["⟩ :: (ts ++ [⟨.rSquare, .str "]", "]"⟩]) := by
  constructor
  case mp =>
    intro h
    have ht : ("[" ++ s ++ "]").toList = '[' :: (s.toList ++ [']']) := by simp
    have ho : Lexes ['['] [⟨.lSquare, .str "[", "["⟩] := lexes_mark (s := "[") (by decide)
    have hc : Lexes [']'] [⟨.rSquare, .str "]", "]"⟩] := lexes_mark (s := "]") (by decide)
    rw [ht] at h
    obtain ⟨ys, rfl, hys⟩ := h.exists_cons_of_special ho (by decide) (by decide)
    obtain ⟨ts, rfl, hts⟩ := hys.exists_concat_of_special hc (by decide) (by decide)
    exact ⟨ts, hts, rfl⟩
  case mpr =>
    rintro ⟨ts, h, rfl⟩
    exact Written.lexes_enclosed (by decide) (by decide) (by decide) (by decide) h

-- Only white space is cut into whitespace.
theorem skipWhitespace_ne_nil (h : Lexes cs ts) (hc : ∃ c ∈ cs, Text.isWhiteSpace c = false) :
    skipWhitespace ts ≠ [] := by
  rw [ne_eq, skipWhitespace_eq_nil_iff]
  intro hw
  obtain ⟨c, hc, hn⟩ := hc
  induction h
  case nil => contradiction
  case cons t cs ts ht _ hi =>
    rw [List.forall_mem_cons] at hw
    rcases List.mem_append.mp hc with hc | hc
    case inl =>
      have ⟨r, hr, hl⟩ := ht.language_text hw.left
      simp only [language, hr] at hl
      rw [hl.right c hc] at hn
      contradiction
    case inr => exact hi hw.right hc

end Lexes

end Expression

namespace Written

variable {text : String}

theorem parse_eq_ok_list_iff :
    ArgTree.parse text { unwrapSingleton := false, maxDepth := m } = .ok (.list l) ↔
      ∃ ts, Lexes text.toList ts ∧ ReadsLevel (Parser.nested m) .endOfText none ts l [] := by
  constructor
  case mp =>
    intro h
    obtain ⟨ts, hl⟩ := exists_lexes_of_parse h
    obtain ⟨vs, hr, hv⟩ := (parse_eq_ok_iff_of_lexes hl).mp h
    cases hv
    exact ⟨ts, hl, hr⟩
  case mpr =>
    rintro ⟨ts, hl, hr⟩
    exact (parse_eq_ok_iff_of_lexes hl).mpr ⟨l, hr, rfl⟩

theorem lexes_keyed (hk : Lexes k.toList [t]) (h : Lexes text.toList (u :: us))
    (hu : u.kind ≠ .whitespace) :
    Lexes (k ++ "=" ++ text).toList (t :: ⟨.equals, .str "=", "="⟩ :: u :: us) := by
  have he : Lexes "=".toList [⟨.equals, .str "=", "="⟩] := lexes_mark (by decide)
  exact lexes_joined hk he h (by simp) (by simp [isRun]) (by simp) hu

-- A key and a list in brackets are a map, with braces around them and without.
theorem parse_keyed {s : String} (hk : isKey k) (hl : Lexes s.toList (o :: (ts ++ [c])))
    (ho : o.kind.closing? = some c.kind) (hn : o.kind ≠ .lCurly) (ht : skipWhitespace ts ≠ [])
    (h : ReadsLevel (Parser.nested m) .endOfText none ts l []) :
    ArgTree.parse (k ++ "=" ++ s) { unwrapSingleton := false, maxDepth := m + 1 } =
      .ok (.list [.map [(k, .list l)]]) ∧
    ArgTree.parse ("\x7b" ++ (k ++ "=" ++ s) ++ "\x7d")
      { unwrapSingleton := false, maxDepth := m + 2 } = .ok (.list [.map [(k, .list l)]]) := by
  obtain ⟨t, hlt, he, rfl⟩ := exists_lexeme_of_isKey hk
  have hw : o.kind ≠ .whitespace :=
    (kind_ne_of_begins (.inr (.inl (Option.isSome_of_eq_some ho)))).left
  have hl := lexes_keyed hlt hl hw
  have hl' : Lexes ("\x7b" ++ (t.text ++ "=" ++ s) ++ "\x7d").toList
      (⟨.lCurly, .str "\x7b", "\x7b"⟩ :: (_ ++ [⟨.rCurly, .str "\x7d", "\x7d"⟩])) :=
    lexes_enclosed (by decide) (by decide) (by decide) (by decide) hl
  exact ⟨parse_eq_ok_list_iff.mpr ⟨_, hl, readsLevel_assignment he rfl ho hn ht h⟩,
    parse_eq_ok_list_iff.mpr ⟨_, hl', readsLevel_hash he rfl ho hn ht h rfl rfl⟩⟩

end Written

open Written

-- A list means the same wherever it is written: as a text, as an item, or as the value of a key.
theorem parse_eq_ok_list_iff_bracketed {text : String}
    (h : ∃ c ∈ text.toList, Text.isWhiteSpace c = false) :
    (∀ m l, parse text { unwrapSingleton := false, maxDepth := m } = .ok (.list l) ↔
      parse ("[" ++ text ++ "]") { unwrapSingleton := false, maxDepth := m + 1 } =
        .ok (.list [.list l])) ∧
    ∀ m l k, parse text { unwrapSingleton := false, maxDepth := m } = .ok (.list l) → isKey k →
      ∀ s ∈ [k ++ "=" ++ ("[" ++ text ++ "]"), k ++ "=" ++ ("(" ++ text ++ ")")],
        parse s { unwrapSingleton := false, maxDepth := m + 1 } =
          .ok (.list [.map [(k, .list l)]]) ∧
        parse ("\x7b" ++ s ++ "\x7d") { unwrapSingleton := false, maxDepth := m + 2 } =
          .ok (.list [.map [(k, .list l)]]) := by
  have hn {ts} (hl : Lexes text.toList ts) : skipWhitespace ts ≠ [] := hl.skipWhitespace_ne_nil h
  constructor
  case left =>
    intro m l
    rw [parse_eq_ok_list_iff, parse_eq_ok_list_iff]
    constructor
    case mp =>
      rintro ⟨ts, hl, hr⟩
      refine ⟨_, Lexes.bracketed_iff.mpr ⟨ts, hl, rfl⟩, ?_⟩
      rw [readsLevel_array_iff rfl rfl (nested_leavesSuffix _)]
      exact (nested_list_yields_iff rfl (hn hl)).mpr hr
    case mpr =>
      rintro ⟨_, hl, hr⟩
      obtain ⟨ts, hts, rfl⟩ := Lexes.bracketed_iff.mp hl
      rw [readsLevel_array_iff rfl rfl (nested_leavesSuffix _)] at hr
      exact ⟨ts, hts, (nested_list_yields_iff rfl (hn hts)).mp hr⟩
  case right =>
    intro m l k hp hk s hs
    obtain ⟨ts, hl, hr⟩ := parse_eq_ok_list_iff.mp hp
    simp only [List.mem_cons, List.not_mem_nil, or_false] at hs
    rcases hs with rfl | rfl
    case inl => exact parse_keyed hk (Lexes.bracketed_iff.mpr ⟨ts, hl, rfl⟩) rfl nofun (hn hl) hr
    case inr =>
      have hl' : Lexes ("(" ++ text ++ ")").toList
          (⟨.lParen, .str "(", "("⟩ :: (ts ++ [⟨.rParen, .str ")", ")"⟩])) :=
        lexes_enclosed (by decide) (by decide) (by decide) (by decide) hl
      exact parse_keyed hk hl' rfl nofun (hn hl) hr

theorem parse_eq_ok_list_iff_bracketed_group :
    let l : List Value := [.str "a", .list [.str "(b)", .str "c"]]
    (∃ c ∈ "a (b),c".toList, Text.isWhiteSpace c = false) ∧
    parse "a (b),c" { unwrapSingleton := false, maxDepth := 1 } = .ok (.list l) ∧ isKey "k" ∧
    parse ("[" ++ "a (b),c" ++ "]") { unwrapSingleton := false, maxDepth := 2 } =
      .ok (.list [.list l]) ∧
    parse ("\x7b" ++ ("k" ++ "=" ++ ("(" ++ "a (b),c" ++ ")")) ++ "\x7d")
      { unwrapSingleton := false, maxDepth := 3 } = .ok (.list [.map [("k", .list l)]]) := by
  intro l
  have ht : ∃ c ∈ "a (b),c".toList, Text.isWhiteSpace c = false :=
    ⟨'a', by decide, by decide +kernel⟩
  have hp : parse "a (b),c" { unwrapSingleton := false, maxDepth := 1 } = .ok (.list l) := by cbv
  have hk : isKey "k" := by cbv
  obtain ⟨hb, hv⟩ := parse_eq_ok_list_iff_bracketed ht
  have hs := List.mem_cons_of_mem ("k" ++ "=" ++ ("[" ++ "a (b),c" ++ "]"))
    (List.mem_singleton_self ("k" ++ "=" ++ ("(" ++ "a (b),c" ++ ")")))
  exact ⟨ht, hp, hk, (hb 1 l).mp hp, (hv 1 l "k" hp hk _ hs).right⟩

end ArgTree
