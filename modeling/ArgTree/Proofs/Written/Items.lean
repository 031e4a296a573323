import ArgTree.Proofs.Parser.Gives
import ArgTree.Proofs.Written.Spelled
import ArgTree.Proofs.Written.Strings

namespace ArgTree.Written

open Expression ArgTree.Parser Lookahead

-- A text is a single element, which stands for `v`.
def AsElement (text : String) (v : Value) : Prop :=
  ∃ t, Lexes text.toList [t] ∧ t.kind.isElement ∧ .ofScalar t.value = v

theorem asElement_of_isBare (h : isBare s) : AsElement s (.str s) := by
  have ⟨t, hl, he, hv⟩ := exists_lexeme_of_isBare h
  exact ⟨t, hl, he, by rw [hv]; rfl⟩

theorem isInteger_ofInt (n : Int) : IsInteger (Digits.ofInt n) := by
  cases n
  case ofNat k =>
    exact ⟨[], Digits.ofNat k, rfl, .inl rfl, Digits.ofNat_ne_nil k,
      fun _ => Digits.isDigit_of_mem_ofNat⟩
  case negSucc k =>
    exact ⟨['-'], Digits.ofNat (k + 1), rfl, .inr (.inl rfl), Digits.ofNat_ne_nil _,
      fun _ => Digits.isDigit_of_mem_ofNat⟩

theorem asElement_int (n : Int64) : AsElement (int n) (.int n) := by
  have ht : (int n).toList = Digits.ofInt n.toInt := String.toList_ofList
  refine ⟨⟨.number, .int n, int n⟩, lexes_of_isInteger ?_ ?_, rfl, rfl⟩ <;> rw [ht]
  · exact isInteger_ofInt n.toInt
  · exact Numeral.integer?_ofInt n

theorem isFloat_write (negative : Bool) (rank : Fin (2047 * Nat.pow 2 52)) :
    IsFloat (FloatText.expression.write (.finite negative rank)) := by
  obtain ⟨whole, fraction, he, _, hw, hn, hf, _⟩ := FloatText.isPositional_magnitude rank.isLt
  rw [FloatText.write]
  refine ⟨if negative then ['-'] else [], whole, fraction, congrArg _ he, ?_, hw, hn, hf⟩
  cases negative <;> simp [IsSign]

theorem asElement_float (f : Binary64) : AsElement (float f) (Value.float f).spelled := by
  have ht : (float f).toList = FloatText.expression.write f := String.toList_ofList
  cases f
  case nan => exact ⟨_, lexes_mark (k := .word) (s := "NaN") (by decide), rfl, rfl⟩
  case infinite negative =>
    cases negative
    case false => exact ⟨_, lexes_mark (k := .word) (s := "inf") (by decide), rfl, rfl⟩
    case true  => exact ⟨_, lexes_mark (k := .word) (s := "-inf") (by decide), rfl, rfl⟩
  case finite negative rank =>
    refine ⟨⟨.number, .float (.finite negative rank), float _⟩,
      lexes_of_isFloat ?_ ?_, rfl, rfl⟩ <;> rw [ht]
    · exact isFloat_write negative rank
    · exact FloatNumeral.float?_write negative rank

-- What follows an item that is written: a comma, a closing bracket or nothing.
def Stops (ts : List Lexeme) : Prop :=
  kind ts = .comma ∨ kind ts = .endOfText ∨ (kind ts).isClosing

theorem Stops.skipPadding_eq (h : Stops ts) : skipPadding ts = ts :=
  Syntax.Pad.none.skipPadding_eq h

theorem Stops.free (h : Stops ts) : Syntax.Free ts := by
  rcases h with h | h | h
  · exact .of_pad .none (by simp [h]) (by simp [h])
  · exact .of_pad .none (by simp [h]) (by simp [h])
  · exact .of_pad .none (Syntax.Kind.ne_of_isClosing h).left (Syntax.Kind.ne_of_isClosing h).right

-- A text is read as the item `v`, and opens `height` levels for that.
def AsItem (text : String) (height : Nat) (v : Value) : Prop :=
  ∃ t ts, Lexes text.toList (t :: ts) ∧ t.kind.begins ∧
    ∀ d us, Stops us → (item (Parser.nested d) t (ts ++ us)).Gives (height ≤ d) v us

-- A text is read as the value `v` of an assignment, and opens `height` levels for that.
def AsAssigned (text : String) (height : Nat) (v : Value) : Prop :=
  ∃ t ts, Lexes text.toList (t :: ts) ∧ (t.kind.isElement ∨ t.kind.isOpening) ∧
    ∀ d us, (assigned (Parser.nested d) (t :: (ts ++ us))).Gives (height ≤ d) v us

theorem AsElement.asItem (h : AsElement text v) : AsItem text 0 v := by
  obtain ⟨t, hl, he, rfl⟩ := h
  refine ⟨t, [], hl, .inr (.inr he), fun d us hu => ?_⟩
  exact (item_yields_iff.mpr (Syntax.element_reads he hu.free)).gives (Nat.zero_le d)

theorem AsElement.asAssigned (h : AsElement text v) : AsAssigned text 0 v := by
  obtain ⟨t, hl, he, rfl⟩ := h
  refine ⟨t, [], hl, .inl he, fun d us => ?_⟩
  exact (assigned_yields_iff.mpr (.element he)).gives (Nat.zero_le d)

theorem asItem_of_isVerbatim (h : isVerbatim s) : AsItem s 0 (.str s) := by
  have ⟨t, region, u, hl, ht, hb, hu⟩ := exists_region_of_isVerbatim h
  have hs : s = Lexeme.textOf (t :: region ++ [u]) := String.toList_injective hl.eq_toList_textOf
  refine ⟨t, region ++ [u], hl, .inr (.inl (by rw [ht]; rfl)), fun d us _ => ?_⟩
  have hr : ReadsItem (Parser.nested d) (t :: (region ++ u :: us)) (.str s) us :=
    hs ▸ .verbatim ht hb hu
  exact (item_yields_iff.mpr (by simpa using hr)).gives (Nat.zero_le d)

theorem asItem_of_isEscapable (h : isEscapable s) : AsItem ("\\" ++ s) 0 (.str s) := by
  have ⟨run, hl, hr⟩ := exists_escaped_of_isEscapable h
  have hs : s = Lexeme.textOf run := String.toList_injective hl.eq_toList_textOf
  refine ⟨⟨.escape, .str "\\", "\\"⟩, run, ?_, .inl rfl, fun d us _ => ?_⟩
  case refine_1 =>
    rw [String.toList_append]
    have he := lexes_mark (k := .escape) (s := "\\") (by decide)
    exact he.cons_of_standApart hl fun _ _ => .of_left (k := .escape) rfl nofun _
  case refine_2 =>
    exact (item_yields_iff.mpr (hs ▸ .escape rfl hr)).gives (Nat.zero_le d)

theorem asItem_string (h : isItem s) : AsItem (string s) 0 (.str s) := by
  rw [string]
  split
  case isTrue hb =>
    rcases Bool.or_eq_true_iff.mp hb with hb | hv
    · exact (asElement_of_isBare hb).asItem
    · exact asItem_of_isVerbatim hv
  case isFalse hn =>
    have he : isEscapable s := by simp_all [isItem]
    rw [if_pos he]
    exact asItem_of_isEscapable he

theorem asAssigned_string (h : isBare s) : AsAssigned (string s) 0 (.str s) := by
  rw [string, if_pos (by simp [h])]
  exact (asElement_of_isBare h).asAssigned

-- A text is read as a list or a map between brackets, which opens `height` levels.
def AsNested (text : String) (height : Nat) (v : Value) : Prop :=
  ∃ t ts what, Lexes text.toList (t :: ts) ∧
    (t.kind = .lSquare ∧ what = .list .rSquare ∨ t.kind = .lCurly ∧ what = .hash) ∧
      ∀ d us, (Parser.nested d what t (ts ++ us)).Gives (height ≤ d) v us

theorem AsNested.asItem (h : AsNested text height v) : AsItem text height v := by
  obtain ⟨t, ts, what, hl, ⟨ht, rfl⟩ | ⟨ht, rfl⟩, hg⟩ := h
  all_goals
    refine ⟨t, ts, hl, .inr (.inl (by rw [ht]; rfl)), fun d us _ => ?_⟩
    simpa only [item, role, kind, ht] using hg d us

theorem AsNested.asAssigned (h : AsNested text height v) : AsAssigned text height v := by
  obtain ⟨t, ts, what, hl, ⟨ht, rfl⟩ | ⟨ht, rfl⟩, hg⟩ := h
  all_goals
    refine ⟨t, ts, hl, .inr (by rw [ht]; rfl), fun d us => ?_⟩
    simpa [assigned, ht, Kind.closing?] using hg d us

variable {spacing : Spacing}

-- Behind a comma and around an equals sign there is nothing but white space.
theorem lexes_separator (spacing : Spacing) : ∃ t pad, Lexes spacing.separator.toList (t :: pad) ∧
    t.kind = .comma ∧ ∀ u ∈ pad, u.kind = .whitespace := by
  rw [Spacing.separator]
  have hc : Lexes ",".toList [⟨.comma, .str ",", ","⟩] := lexes_mark (by decide)
  split
  case isFalse => exact ⟨_, [], hc, rfl, by simp⟩
  case isTrue  =>
    have hs : Lexes " ".toList [⟨.whitespace, .str " ", " "⟩] := lexes_mark (by decide)
    have ht : ", ".toList = ",".toList ++ " ".toList := by decide
    rw [ht]
    have hl := hc.cons_of_standApart hs fun _ _ => .of_left (k := .comma) rfl nofun _
    exact ⟨_, _, hl, rfl, by simp⟩

theorem lexes_equals (spacing : Spacing) : ∃ front t back,
    Lexes spacing.equals.toList (front ++ t :: back) ∧ t.kind = .equals ∧
      (∀ u ∈ front, u.kind = .whitespace) ∧ ∀ u ∈ back, u.kind = .whitespace := by
  rw [Spacing.equals]
  have he : Lexes "=".toList [⟨.equals, .str "=", "="⟩] := lexes_mark (by decide)
  split
  case isFalse => exact ⟨[], _, [], he, rfl, by simp, by simp⟩
  case isTrue  =>
    have hs : Lexes " ".toList [⟨.whitespace, .str " ", " "⟩] := lexes_mark (by decide)
    have hb := he.cons_of_standApart hs fun _ _ => .of_left (k := .equals) rfl nofun _
    have ht : " = ".toList = " ".toList ++ ("=".toList ++ " ".toList) := by decide
    rw [ht]
    have hf := hs.cons_of_standApart hb (by simp [StandApart, isRun])
    exact ⟨[_], _, [_], hf, rfl, by simp, by simp⟩

theorem skipWhitespace_append (h : ∀ t ∈ pad, t.kind = .whitespace) (ts : List Lexeme) :
    skipWhitespace (pad ++ ts) = skipWhitespace ts := by
  rw [skipWhitespace, List.dropWhile_append_of_pos (by simpa using h)]
  rfl

theorem lexes_enclosed (ho : (k, o) ∈ marks) (hk : isRun k = false ∧ k ≠ .whitespace)
    (hc : (l, c) ∈ marks) (hl : isRun l = false ∧ l ≠ .whitespace) (h : Lexes s.toList ts) :
    Lexes (o ++ s ++ c).toList (⟨k, .str o, o⟩ :: (ts ++ [⟨l, .str c, c⟩])) := by
  rw [String.append_assoc, String.toList_append, String.toList_append]
  have hs := h.append_of_standApart (lexes_mark hc) fun t _ u hu => by
    cases hu
    exact .of_right hl.left hl.right t.kind
  exact (lexes_mark ho).cons_of_standApart hs fun _ _ => .of_left hk.left hk.right _

-- Two texts with a delimiter between them, that may have white space around it.
theorem lexes_joined {a m b : String} (h : Lexes a.toList ts) (hm : Lexes m.toList xs)
    (h' : Lexes b.toList (u :: us)) (hn : xs ≠ []) (hx : ∀ x ∈ xs, isRun x.kind = false)
    (ht : ∀ t ∈ ts.getLast?, ∀ x ∈ xs.head?, ¬(t.kind = .whitespace ∧ x.kind = .whitespace))
    (hu : u.kind ≠ .whitespace) : Lexes (a ++ m ++ b).toList (ts ++ (xs ++ u :: us)) := by
  rw [String.append_assoc, String.toList_append, String.toList_append]
  have hs := hm.append_of_standApart h' fun x hl y hy => by
    cases hy
    simp [StandApart, hx x (List.mem_of_getLast? hl), hu]
  refine h.append_of_standApart hs fun t hl x hh => ?_
  rw [List.head?_append_of_ne_nil _ hn] at hh
  simp [StandApart, hx x (List.mem_of_mem_head? hh), ht t hl x hh]

theorem lexes_separated (spacing : Spacing) (h : Lexes a.toList ts) (h' : Lexes b.toList (u :: us))
    (hu : u.kind ≠ .whitespace) : ∃ m pad,
      Lexes (a ++ spacing.separator ++ b).toList (ts ++ m :: (pad ++ u :: us)) ∧ m.kind = .comma ∧
        ∀ x ∈ pad, x.kind = .whitespace := by
  obtain ⟨m, pad, hm, hk, hp⟩ := lexes_separator spacing
  have hx : ∀ x ∈ m :: pad, isRun x.kind = false := by
    rw [List.forall_mem_cons]
    exact ⟨by rw [hk]; rfl, fun x hx => by rw [hp x hx]; rfl⟩
  exact ⟨m, pad, lexes_joined h hm h' (List.cons_ne_nil _ _) hx (by simp [hk]) hu, hk, hp⟩

theorem lexes_assigned (spacing : Spacing) (h : Lexes a.toList [t]) (ht : t.kind ≠ .whitespace)
    (h' : Lexes b.toList (u :: us)) (hu : u.kind ≠ .whitespace) : ∃ front m back,
      Lexes (a ++ spacing.equals ++ b).toList (t :: (front ++ m :: back ++ u :: us)) ∧
        m.kind = .equals ∧ (∀ x ∈ front, x.kind = .whitespace) ∧
          ∀ x ∈ back, x.kind = .whitespace := by
  obtain ⟨front, m, back, hm, hk, hf, hb⟩ := lexes_equals spacing
  have hx : ∀ x ∈ front ++ m :: back, isRun x.kind = false := by
    rw [List.forall_mem_append, List.forall_mem_cons]
    exact ⟨fun x hx => by rw [hf x hx]; rfl, by rw [hk]; rfl, fun x hx => by rw [hb x hx]; rfl⟩
  exact ⟨front, m, back, lexes_joined h hm h' (by simp) hx (by simp [ht]) hu, hk, hf, hb⟩

-- The state behind a comma does not change with the white space that follows.
theorem gives_pad {inner : Inner} {p : Prop} (hp : ∀ t ∈ pad, t.kind = .whitespace)
    (h : (Parser.items inner (.ready (.bracket close) .comma) last ts).Gives p vs us) :
    (Parser.items inner (.ready (.bracket close) .comma) last (pad ++ ts)).Gives p vs us := by
  induction pad
  case nil => exact h
  case cons t pad hi =>
    rw [List.forall_mem_cons] at hp
    refine gives_delimiter rfl ?_ (.inl hp.left) (hi hp.right)
    rw [hp.left]
    rfl

-- The last item of a list, up to and including the closing bracket behind it.
theorem gives_last {inner : Inner} {p : Prop} (last : List Value)
    (he : Syntax.Enters l (.bracket .rSquare) c t.kind)
    (hu : u.kind = .rSquare)
    (hi : Stops (u :: us) → (item inner t (ts ++ u :: us)).Gives p v (u :: us)) :
    (Parser.items inner l last (t :: (ts ++ u :: us))).Gives p (last.reverse ++ [v]) us := by
  have hs : Stops (u :: us) := .inr (.inr (by rw [kind, hu]; rfl))
  have hr : (Parser.items inner (.begun (.bracket .rSquare) c) (v :: last)
      (skipPadding (u :: us))).Yields (v :: last).reverse us := by
    rw [hs.skipPadding_eq]
    exact items_yields_iff.mpr (.closes (by rw [hu]; rfl) (by rw [hu]; rfl) rfl)
  rw [List.reverse_cons] at hr
  exact (gives_item he (hi hs) (hr.gives trivial)).congr (iff_of_eq (and_true p))

-- The items of a list, up to and including its closing bracket.
theorem gives_items (vs : List Value) (hn : vs ≠ [])
    (hv : ∀ v ∈ vs, AsItem (nested spacing v) v.height v.spelled) :
    ∃ t ts, Lexes (nested.items spacing vs).toList (t :: ts) ∧ t.kind.begins ∧
      ∀ d l c last u us, c = .undetermined ∨ c = .comma →
        Syntax.Enters l (.bracket .rSquare) c t.kind → u.kind = .rSquare →
          (Parser.items (Parser.nested d) l last (t :: (ts ++ u :: us))).Gives
            (Value.height.items vs ≤ d) (last.reverse ++ Value.spelled.items vs) us := by
  induction vs
  case nil => contradiction
  case cons v vs hi =>
    have ⟨⟨t, ts, hl, hb, hg⟩, hv⟩ := List.forall_mem_cons.mp hv
    cases vs
    case nil =>
      refine ⟨t, ts, hl, hb, fun d l c last u us _ he hu => ?_⟩
      have hg := gives_last last he hu (hg d (u :: us))
      simpa [Value.height.items, Value.spelled.items] using hg
    case cons w vs =>
      have ⟨t', ts', hl', hb', hi⟩ := hi nofun hv
      have ⟨m, pad, hj, hk, hp⟩ := lexes_separated spacing hl hl' (kind_ne_of_begins hb').left
      refine ⟨t, ts ++ m :: (pad ++ t' :: ts'), hj, hb, fun d l c last u us hc he hu => ?_⟩
      have hs (us : List Lexeme) : Stops (m :: us) := .inl hk
      have hr := hi d (.ready (.bracket .rSquare) .comma) .comma (v.spelled :: last) u us (.inr rfl)
        ⟨hb', rfl⟩ hu
      have hd := gives_delimiter (l := .begun (.bracket .rSquare) c) rfl
        (Level.begun_delimiter hc (by rw [hk]; rfl)) (.inr hk) (gives_pad hp hr)
      have hg := gives_item he (hg d _ (hs _)) ((hs _).skipPadding_eq.symm ▸ hd)
      have ha : ts ++ m :: (pad ++ t' :: ts') ++ u :: us =
          ts ++ m :: (pad ++ t' :: (ts' ++ u :: us)) := by simp
      rw [ha]
      simpa [Value.height.items, Value.spelled.items] using hg

theorem asNested_of_items (hl : Lexes s.toList (t :: ts)) (hb : t.kind.begins)
    (hi : ∀ d u us, u.kind = .rSquare →
      (Parser.items (Parser.nested d) (.start (.bracket .rSquare)) [] (t :: (ts ++ u :: us))).Gives
        (height ≤ d) vs us) :
    AsNested ("[" ++ s ++ "]") (height + 1) (.list vs) := by
  have hl' := lexes_enclosed (k := .lSquare) (o := "[") (by decide) ⟨rfl, nofun⟩ (l := .rSquare)
    (c := "]") (by decide) ⟨rfl, nofun⟩ hl
  refine ⟨_, _, .list .rSquare, hl', .inl ⟨rfl, rfl⟩, fun d us => ?_⟩
  have ha (u : Lexeme) : t :: ts ++ [u] ++ us = t :: (ts ++ u :: us) := by simp
  rw [ha]
  exact gives_list (show (kind (t :: _)).begins from hb) (fun d => hi d _ us rfl) d _

theorem asNested_list (hn : vs ≠ []) (hv : ∀ v ∈ vs, AsItem (nested spacing v) v.height v.spelled) :
    AsNested (nested spacing (.list vs)) (Value.list vs).height (Value.list vs).spelled := by
  have ⟨t, ts, hl, hb, hi⟩ := gives_items vs hn hv
  exact asNested_of_items hl hb fun d u us => hi d _ .undetermined [] u us (.inl rfl) ⟨hb, rfl⟩

theorem key_of_isKey (h : isKey k) : key k = k := by
  simp only [isKey] at h
  simp only [key]
  split at h <;> simp_all

-- A key and a value with an equals sign between them.
theorem gives_entry_text (spacing : Spacing) (hk : isKey k) (hv : AsAssigned text height v) :
    ∃ t ts, Lexes (key k ++ spacing.equals ++ text).toList (t :: ts) ∧ t.kind.isElement ∧
      ∀ us, ∃ a, assignment? (t :: (ts ++ us)) = some a ∧ a.key.text = k ∧
        ∀ d, (assigned (Parser.nested d) a.value).Gives (height ≤ d) v us := by
  have ⟨t, ht, he, hs⟩ := exists_lexeme_of_isKey hk
  obtain ⟨u, us, hl, hu, hg⟩ := hv
  have ht' : t.kind ≠ .whitespace := (kind_ne_of_begins (.inr (.inr he))).left
  have hu' : u.kind ≠ .whitespace := (kind_ne_of_begins (.inr hu.symm)).left
  have ⟨front, e, back, hj, hq, hf, hb⟩ := lexes_assigned spacing ht ht' hl hu'
  refine ⟨t, front ++ e :: back ++ u :: us, ?_, he, fun vs => ?_⟩
  case refine_1 => rwa [key_of_isKey hk]
  case refine_2 =>
    have hv : skipWhitespace (back ++ u :: (us ++ vs)) = u :: (us ++ vs) := by
      exact (skipWhitespace_append hb _).trans (skipWhitespace_of_kind hu')
    have hs' : skipWhitespace (front ++ e :: back ++ u :: us ++ vs) =
        e :: (back ++ u :: (us ++ vs)) := by
      rw [List.append_assoc, List.append_assoc, skipWhitespace_append hf,
        skipWhitespace_of_kind (by simp [kind, hq])]
      simp
    have ha := assignment?_eq_some_iff.mpr ⟨e, _, hs', hq, he, rfl, by rwa [hv]⟩
    exact ⟨_, ha, hs, fun d => by rw [hv]; exact hg d vs⟩

theorem insert_eq_append {fs : Entries Value} (h : (Entries.keys (fs ++ (k, v) :: es)).Nodup)
    (w : Value) : fs.insert k w = fs ++ [(k, w)] := by
  rw [Entries.keys, List.map_append] at h
  exact Entries.insert_of_not_mem
    (fun hk => (List.nodup_append.mp h).right.right k hk k (by simp) rfl) w

-- The entries of a map, up to and including its closing bracket.
theorem gives_entries (es : Entries Value) (hn : es ≠ []) (hk : ∀ e ∈ es, isKey e.1)
    (hv : ∀ e ∈ es, AsAssigned (nested spacing e.2) e.2.height e.2.spelled) :
    ∃ t ts, Lexes (nested.entries spacing es).toList (t :: ts) ∧ t.kind.isElement ∧
      ∀ d (fs : Entries Value) ws u us, skipWhitespace ws = t :: (ts ++ u :: us) →
        (Entries.keys (fs ++ es)).Nodup → u.kind = .rCurly →
          (Parser.entries (Parser.nested d) true fs ws).Gives (Value.height.entries es ≤ d)
            (fs ++ Value.spelled.entries es) us := by
  induction es
  case nil => contradiction
  case cons e es hi =>
    obtain ⟨k, v⟩ := e
    obtain ⟨hk, hks⟩ : isKey k ∧ ∀ e ∈ es, isKey e.1 := by simpa using hk
    obtain ⟨hv, hvs⟩ : AsAssigned (nested spacing v) v.height v.spelled ∧
      ∀ e ∈ es, AsAssigned (nested spacing e.2) e.2.height e.2.spelled := by simpa using hv
    obtain ⟨t, ts, hl, he, ha⟩ := gives_entry_text spacing hk hv
    cases es
    case nil =>
      refine ⟨t, ts, hl, he, fun d fs ws u us hs hd hu => ?_⟩
      obtain ⟨a, ha, hak, hg⟩ := ha (u :: us)
      have hc : skipWhitespace (u :: us) = u :: us :=
        skipWhitespace_of_kind (by simp [kind, hu])
      have hr (es : Entries Value) :
          (Parser.entries (Parser.nested d) false es (u :: us)).Gives True es us :=
        (entries_yields_iff.mpr (.close hc hu)).gives trivial
      have hg := gives_entry hs ha hak (hg d) (hr (fs.insert k v.spelled))
      simpa [Value.height.entries, Value.spelled.entries, insert_eq_append hd] using hg
    case cons e es =>
      obtain ⟨t', ts', hl', he', hi⟩ := hi (List.cons_ne_nil _ _) hks hvs
      have ht' : t'.kind ≠ .whitespace := (kind_ne_of_begins (.inr (.inr he'))).left
      obtain ⟨m, pad, hj, hk, hp⟩ := lexes_separated spacing hl hl' ht'
      refine ⟨t, ts ++ m :: (pad ++ t' :: ts'), hj, he, fun d fs ws u us hs hd hu => ?_⟩
      obtain ⟨a, ha, hak, hg⟩ := ha (m :: (pad ++ t' :: (ts' ++ u :: us)))
      have hm : skipWhitespace (m :: (pad ++ t' :: (ts' ++ u :: us))) = m :: _ :=
        skipWhitespace_of_kind (by simp [kind, hk])
      have hp : skipWhitespace (pad ++ t' :: (ts' ++ u :: us)) = t' :: (ts' ++ u :: us) :=
        (skipWhitespace_append hp _).trans (skipWhitespace_of_kind ht')
      have hr := hi d (fs ++ [(k, v.spelled)]) _ u us hp (by simpa [Entries.keys] using hd) hu
      have hg := gives_entry (by simpa using hs) ha hak (hg d)
        (insert_eq_append hd v.spelled ▸ gives_comma hm hk hr)
      simpa [Value.height.entries, Value.spelled.entries, insert_eq_append hd] using hg

theorem asNested_map (hn : es ≠ []) (hd : (Entries.keys es).Nodup) (hk : ∀ e ∈ es, isKey e.1)
    (hv : ∀ e ∈ es, AsAssigned (nested spacing e.2) e.2.height e.2.spelled) :
    AsNested (nested spacing (.map es)) (Value.map es).height (Value.map es).spelled := by
  have ⟨t, ts, hl, he, hi⟩ := gives_entries es hn hk hv
  have hl' := lexes_enclosed (k := .lCurly) (o := "\x7b") (by decide) ⟨rfl, nofun⟩ (l := .rCurly)
    (c := "\x7d") (by decide) ⟨rfl, nofun⟩ hl
  refine ⟨_, _, .hash, hl', .inr ⟨rfl, rfl⟩, fun d us => ?_⟩
  have ha (u : Lexeme) : t :: ts ++ [u] ++ us = t :: (ts ++ u :: us) := by simp
  have ht : t.kind ≠ .whitespace := (kind_ne_of_begins (.inr (.inr he))).left
  rw [ha]
  exact gives_hash (fun d => hi d [] _ _ us (skipWhitespace_of_kind ht) hd rfl) d _

-- Whatever an expression can denote is read from its text, apart from floats that are no numbers.
theorem asItem_and_asAssigned (h : v.WellFormed (fun _ => True) strings) (spacing : Spacing) :
    ((∀ s, strings s → isItem s) → AsItem (nested spacing v) v.height v.spelled) ∧
      ((∀ s, strings s → isBare s) → AsAssigned (nested spacing v) v.height v.spelled) := by
  induction h
  case str hs => exact ⟨fun h => asItem_string (h _ hs), fun h => asAssigned_string (h _ hs)⟩
  case int =>
    exact ⟨fun _ => (asElement_int _).asItem, fun _ => (asElement_int _).asAssigned⟩
  case float =>
    exact ⟨fun _ => (asElement_float _).asItem, fun _ => (asElement_float _).asAssigned⟩
  case list hn _ hi =>
    have hv := asNested_list hn fun v hv => (hi v hv).left fun _ h => h
    exact ⟨fun _ => hv.asItem, fun _ => hv.asAssigned⟩
  case map hn hd hk _ hi =>
    have hv := asNested_map hn hd hk fun e he => (hi e he).right fun _ h => h
    exact ⟨fun _ => hv.asItem, fun _ => hv.asAssigned⟩

end ArgTree.Written
