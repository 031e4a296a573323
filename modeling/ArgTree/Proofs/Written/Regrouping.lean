import ArgTree.Proofs.Parser.Segments
import ArgTree.Proofs.Written.CommaSpace
import ArgTree.Proofs.Written.Enclosed
import ArgTree.Proofs.Written.ReadBack

namespace ArgTree

open Expression ArgTree.Parser Lookahead Written

-- A text is cut into lexemes that neither begin nor end with whitespace.
structure Solid (text : String) (ts : List Lexeme) : Prop where
  lexes  : Lexes text.toList ts
  ne_nil : ts ≠ []
  head   : ∀ t ∈ ts.head?, t.kind ≠ .whitespace
  last   : ∀ t ∈ ts.getLast?, t.kind ≠ .whitespace

-- What stands between two texts is cut into such lexemes as `p` says, and into nothing that goes on
-- in the text behind it.
def Gaps (sep : String → Prop) (p : List Lexeme → Prop) : Prop :=
  ∀ w, sep w → ∃ ws, Lexes w.toList ws ∧ p ws ∧ ws ≠ [] ∧ ∀ t ∈ ws, isRun t.kind = false

namespace Solid

variable {a b w : String}

theorem skipWhitespace_ne_nil (h : Solid a ts) : skipWhitespace ts ≠ [] := by
  obtain ⟨t, ts, rfl⟩ := List.exists_cons_of_ne_nil h.ne_nil
  have hk : kind (t :: ts) ≠ .whitespace := h.head t rfl
  rw [skipWhitespace_of_kind hk]
  exact h.ne_nil

theorem join (h : Solid a ts) (hw : Lexes w.toList ws) (hn : ws ≠ [])
    (hr : ∀ t ∈ ws, isRun t.kind = false) (h' : Solid b us) :
    Solid (a ++ w ++ b) (ts ++ ws ++ us) := by
  obtain ⟨u, us, rfl⟩ := List.exists_cons_of_ne_nil h'.ne_nil
  refine ⟨?_, by simp, ?_, ?_⟩
  case refine_1 =>
    rw [List.append_assoc]
    exact lexes_joined h.lexes hw h'.lexes hn hr (fun t ht _ _ hk => h.last t ht hk.left)
      (h'.head u rfl)
  case refine_2 =>
    rw [List.append_assoc, List.head?_append_of_ne_nil _ h.ne_nil]
    exact h.head
  case refine_3 =>
    rw [List.getLast?_append_of_ne_nil _ h'.ne_nil]
    exact h'.last

-- Texts with gaps between them are cut into what they are cut into by themselves.
theorem exists_joined {R : List Lexeme → α → Prop} (hg : Gaps sep p) (h : Joined sep texts text)
    (ht : List.Forall₂ (fun v a => ∃ ts, Solid a ts ∧ R ts v) vs texts) :
    ∃ rows ts, Solid text ts ∧ Joined p rows ts ∧ List.Forall₂ R rows vs := by
  induction h generalizing vs
  case single =>
    cases ht with
    | cons ht hn =>
      cases hn
      obtain ⟨ts, hs, hr⟩ := ht
      exact ⟨[ts], ts, hs, .single, .cons hr .nil⟩
  case cons hw _ hi =>
    cases ht with
    | cons ht hts =>
      obtain ⟨ts, hs, hr⟩ := ht
      obtain ⟨rows, us, hu, hj, hrs⟩ := hi hts
      obtain ⟨ws, hl, hp, hn, hx⟩ := hg _ hw
      exact ⟨ts :: rows, _, hs.join hl hn hx hu, .cons hp hj, .cons hr hrs⟩

end Solid

namespace Gaps

theorem splits_whitespace : Gaps (IsWhiteSpace ·.toList) (Splits .whitespace) :=
  fun w hw => ⟨_, lexes_of_isWhiteSpace hw, ⟨_, rfl, rfl⟩, by simp, by simp [isRun]⟩

theorem parts_whitespace : Gaps (IsWhiteSpace ·.toList) (Parts .whitespace) :=
  fun w hw => ⟨_, lexes_of_isWhiteSpace hw, .whitespace rfl, by simp, by simp [isRun]⟩

theorem splits_comma : Gaps (· = ",") (Splits .comma) := by
  rintro _ rfl
  exact ⟨_, lexes_mark (k := .comma) (by decide), ⟨_, rfl, rfl⟩, by simp, by simp [isRun]⟩

end Gaps

-- A comma with optional white space on both sides.
def IsPaddedComma (w : String) : Prop :=
  ∃ a b, w = a ++ "," ++ b ∧ ∀ c ∈ a.toList ++ b.toList, Text.isWhiteSpace c

theorem exists_lexes_blank {a : String} (h : ∀ c ∈ a.toList, Text.isWhiteSpace c) :
    ∃ ws, Lexes a.toList ws ∧ (∀ ts, Syntax.Pad (ws ++ ts) ts) ∧
      ∀ t ∈ ws, t.kind = .whitespace := by
  by_cases hn : a.toList = []
  case pos => exact ⟨[], hn ▸ .nil, fun _ => .none, nofun⟩
  case neg => exact ⟨_, lexes_of_isWhiteSpace ⟨hn, h⟩, fun _ => .space rfl, by simp⟩

theorem Gaps.parts_comma : Gaps IsPaddedComma (Parts .comma) := by
  rintro _ ⟨a, b, rfl, h⟩
  rw [List.forall_mem_append] at h
  obtain ⟨front, hf, hp, hk⟩ := exists_lexes_blank h.left
  obtain ⟨back, hb, _, hk'⟩ := exists_lexes_blank h.right
  have hc : Lexes ",".toList [⟨.comma, .str ",", ","⟩] := lexes_mark (by decide)
  refine ⟨front ++ ⟨.comma, .str ",", ","⟩ :: back, ?_, .comma (hp _) rfl hk', by simp, ?_⟩
  case refine_1 =>
    have hcb := hc.cons_of_standApart hb fun _ _ => .of_left (k := .comma) rfl nofun _
    rw [String.append_assoc, String.toList_append, String.toList_append]
    refine hf.append_of_standApart hcb fun t _ u hu => ?_
    cases hu
    exact .of_right (l := .comma) rfl nofun _
  case refine_2 =>
    rw [List.forall_mem_append, List.forall_mem_cons]
    exact ⟨fun t ht => by rw [hk t ht]; rfl, rfl, fun t ht => by rw [hk' t ht]; rfl⟩

-- An item that can be read back, and is not written with a `\`. White space behind the text could
-- belong to what the `\` escapes.
structure Written.IsPlainItem (spacing : Spacing) (v : Value) : Prop where
  wellFormed : v.WellFormed (·.isFinite) (isItem ·)
  unescaped  : '\\' ∉ (nested spacing v).toList.head?

namespace Written

theorem AsElement.exists_denotes (h : AsElement text v) : ∃ ts, Solid text ts ∧ Denotes 0 ts v := by
  obtain ⟨t, hl, he, rfl⟩ := h
  have hk : t.kind ≠ .whitespace := (kind_ne_of_begins (.inr (.inr he))).left
  exact ⟨[t], ⟨hl, by simp, by simpa, by simpa⟩, fun d us _ hf => Syntax.element_reads he hf⟩

theorem exists_denotes_of_isVerbatim (h : isVerbatim s) :
    ∃ ts, Solid s ts ∧ Denotes 0 ts (.str s) := by
  have ⟨t, region, u, hl, ht, hb, hu⟩ := exists_region_of_isVerbatim h
  have hs : s = Lexeme.textOf (t :: region ++ [u]) := String.toList_injective hl.eq_toList_textOf
  refine ⟨_, ⟨hl, by simp, by simp [ht], ?_⟩, fun d us _ _ => ?_⟩
  case refine_1 => simp [List.getLast?_cons, hu]
  case refine_2 =>
    have hr : ReadsItem (Parser.nested d) (t :: (region ++ u :: us)) (.str s) us :=
      hs ▸ .verbatim ht hb hu
    simpa using hr

theorem AsNested.exists_denotes (h : AsNested text height v) (hc : c ∈ text.toList.getLast?)
    (hn : Text.isWhiteSpace c = false) : ∃ ts, Solid text ts ∧ Denotes height ts v := by
  obtain ⟨t, ts, what, hl, ht, hg⟩ := h
  have hk : t.kind ≠ .whitespace := by rcases ht with ⟨ht, _⟩ | ⟨ht, _⟩ <;> simp [ht]
  refine ⟨_, ⟨hl, by simp, by simpa, hl.not_whitespace_of_getLast hc hn⟩, fun d us hd _ => ?_⟩
  have hr := (hg d us).yields hd
  rcases ht with ⟨ht, rfl⟩ | ⟨ht, rfl⟩
  case inl => exact .array ht hr
  case inr => exact .hash ht hr

variable {spacing : Spacing}

theorem exists_denotes_string (h : isItem s) (hn : '\\' ∉ (string s).toList.head?) :
    ∃ ts, Solid (string s) ts ∧ Denotes 0 ts (.str s) := by
  by_cases hb : isBare s
  case pos =>
    have hs : string s = s := by simp [string, hb]
    exact hs.symm ▸ (asElement_of_isBare hb).exists_denotes
  case neg =>
    by_cases hv : isVerbatim s
    case pos =>
      have hs : string s = s := by simp [string, hv]
      exact hs.symm ▸ exists_denotes_of_isVerbatim hv
    case neg =>
      have he : isEscapable s := by simpa [isItem, hb, hv] using h
      exact absurd (by simp [string, hb, hv, he]) hn

theorem IsPlainItem.exists_denotes (h : IsPlainItem spacing v) :
    ∃ ts, Solid (nested spacing v) ts ∧ Denotes v.depth ts v := by
  obtain ⟨h, hu⟩ := h
  have ⟨ht, hf⟩ := Value.WellFormed.iff_allFloats.mp h
  have hs : v.spelled = v := (Value.spelled_eq_self_iff v).mpr hf
  have hd : v.height = v.depth := Value.height_eq_depth h.ne_nil
  cases ht
  case str s hi => exact exists_denotes_string hi hu
  case int n    => exact (asElement_int n).exists_denotes
  case float f _ =>
    have he := asElement_float f
    rw [hs] at he
    exact he.exists_denotes
  case list vs hn hv =>
    have hl := asNested_list hn fun v hm =>
      (asItem_and_asAssigned (hv v hm) spacing).left fun _ h => h
    rw [hs, hd] at hl
    exact hl.exists_denotes (c := ']') (by simp [nested, List.getLast?_cons]) (by decide +kernel)
  case map es hn hk hks hv =>
    have hm := asNested_map hn hk hks fun e he =>
      (asItem_and_asAssigned (hv e he) spacing).right fun _ h => h
    rw [hs, hd] at hm
    exact hm.exists_denotes (c := '\x7d') (by simp [nested, List.getLast?_cons]) (by decide +kernel)

theorem exists_segment (hg : Gaps inside (Splits c))
    (h : Joined inside (vs.map (nested spacing)) text)
    (hv : ∀ v ∈ vs, IsPlainItem spacing v ∧ v.depth ≤ m) :
    ∃ ts, Solid text ts ∧ Segment m c ts vs := by
  have ht : List.Forall₂ (fun v a => ∃ ts, Solid a ts ∧ Denotes m ts v) vs
      (vs.map (nested spacing)) := by
    rw [List.forall₂_map_right_iff, List.forall₂_same]
    intro v hm
    have ⟨hp, hd⟩ := hv v hm
    obtain ⟨ts, hs, hv⟩ := hp.exists_denotes
    exact ⟨ts, hs, hv.mono hd⟩
  obtain ⟨rows, ts, hs, hj, hr⟩ := Solid.exists_joined hg h ht
  exact ⟨ts, hs, rows, hr, hj⟩

-- A text of segments, none of which is empty. What is `inside` joins the items of a segment, and
-- what is `between` joins the segments.
def Arranged (spacing : Spacing) (inside between : String → Prop) (segments : List (List Value))
    (text : String) : Prop :=
  ∃ texts, List.Forall₂ (fun vs a => Joined inside (vs.map (nested spacing)) a) segments texts ∧
    Joined between texts text

theorem Arranged.exists_reads {v : Value} {segments : List (List Value)}
    (h : Arranged spacing inside between ([v] :: segments) text) (hn : segments ≠ [])
    (hi : Gaps inside (Splits c.opposite)) (hb : Gaps between (Parts c))
    (hv : ∀ vs ∈ [v] :: segments, ∀ v ∈ vs, IsPlainItem spacing v ∧ v.depth ≤ m) :
    ∃ ts, Solid text ts ∧
      ReadsLevel (Parser.nested (m + 1)) .endOfText none ts (([v] :: segments).map .unit) [] := by
  obtain ⟨texts, ht, hj⟩ := h
  have hs := ((List.forall₂_and_left _ _).mpr ⟨hv, ht⟩).imp fun _ _ h =>
    exists_segment hi h.right h.left
  obtain ⟨rows, ts, hl, hj, hs⟩ := Solid.exists_joined hb hj hs
  refine ⟨ts, hl, ?_⟩
  cases hs with
  | cons hs hss =>
    cases hj with
    | single =>
      cases hss
      contradiction
    | cons hw hj => exact readsLevel_segments hs.denotes hw hj hss

end Written

open Written

-- Segments with commas between them whose items have white space between them, and segments with
-- white space between them whose items have commas between them, are read as the same list, if the
-- first segment is a single item: its delimiter decides the convention of the level.
theorem parse_regrouped {spacing : Spacing} {first : Value} {segments : List (List Value)}
    {text : String} (hn : segments ≠ [])
    (hv : ∀ vs ∈ [first] :: segments, ∀ v ∈ vs, IsPlainItem spacing v ∧ v.depth + 1 ≤ m)
    (ht : Arranged spacing (IsWhiteSpace ·.toList) IsPaddedComma ([first] :: segments) text ∨
      Arranged spacing (· = ",") (IsWhiteSpace ·.toList) ([first] :: segments) text) :
    (∀ unwrap, parse text { unwrapSingleton := unwrap, maxDepth := m } =
      .ok (.list (([first] :: segments).map .unit))) ∧
    parse ("[" ++ text ++ "]") { maxDepth := m + 1 } =
      .ok (.list (([first] :: segments).map .unit)) := by
  have hm := (hv [first] List.mem_cons_self first List.mem_cons_self).right
  obtain ⟨m, rfl⟩ := Nat.exists_eq_add_of_le' (Nat.le_of_add_left_le hm)
  have hv vs hs v hm := (hv vs hs v hm).imp_right Nat.le_of_succ_le_succ
  have ⟨ts, hl, hr⟩ : ∃ ts, Solid text ts ∧
      ReadsLevel (Parser.nested (m + 1)) .endOfText none ts
        (([first] :: segments).map .unit) [] := by
    rcases ht with h | h
    case inl => exact h.exists_reads (c := .comma) hn .splits_whitespace .parts_comma hv
    case inr => exact h.exists_reads (c := .whitespace) hn .splits_comma .parts_whitespace hv
  constructor
  case left =>
    obtain ⟨vs, segments, rfl⟩ := List.exists_cons_of_ne_nil hn
    intro unwrap
    exact (parse_eq_ok_iff_of_lexes hl.lexes).mpr ⟨_, hr, by cases unwrap <;> cases first <;> rfl⟩
  case right =>
    have hx := Lexes.bracketed_iff.mpr ⟨ts, hl.lexes, rfl⟩
    refine (parse_eq_ok_iff_of_lexes hx).mpr ⟨[.list _], ?_, rfl⟩
    refine (readsLevel_array_iff rfl rfl (nested_leavesSuffix _)).mpr ?_
    exact (nested_list_yields_iff rfl hl.skipWhitespace_ne_nil).mpr hr

theorem parse_regrouped_integers :
    let v : Value := .list [.int 1, .list [.int 2, .int 3], .int 4]
    parse "1 , 2 3,4" = .ok v ∧ parse "[1 2,3 4]" = .ok v := by
  intro v
  have h₁ : nested {} (.int 1) = "1" := by cbv
  have h₂ : nested {} (.int 2) = "2" := by cbv
  have h₃ : nested {} (.int 3) = "3" := by cbv
  have h₄ : nested {} (.int 4) = "4" := by cbv
  have hn : [[Value.int 2, .int 3], [.int 4]] ≠ [] := List.cons_ne_nil _ _
  have hv (m : Nat) : ∀ vs ∈ [[.int 1], [.int 2, .int 3], [.int 4]], ∀ v ∈ vs,
      IsPlainItem {} v ∧ v.depth + 1 ≤ m + 1 := by
    have hi {n : Int64} (hu : '\\' ∉ (nested {} (.int n)).toList.head?) :
        IsPlainItem {} (.int n) ∧ (Value.int n).depth + 1 ≤ m + 1 :=
      ⟨⟨.int, hu⟩, Nat.le_add_left 1 m⟩
    simp only [List.forall_mem_cons, List.not_mem_nil, IsEmpty.forall_iff, implies_true, and_true]
    exact ⟨hi (by rw [h₁]; decide), ⟨hi (by rw [h₂]; decide), hi (by rw [h₃]; decide)⟩,
      hi (by rw [h₄]; decide)⟩
  have hs := isWhiteSpace_blank
  constructor
  case left =>
    have hc : IsPaddedComma " , " :=
      ⟨" ", " ", by decide, fun c hc => hs.right c (by simpa using hc)⟩
    have hc' : IsPaddedComma "," := ⟨"", "", by decide, List.forall_mem_nil _⟩
    have ht : Arranged {} (IsWhiteSpace ·.toList) IsPaddedComma
        [[.int 1], [.int 2, .int 3], [.int 4]] "1 , 2 3,4" := by
      refine ⟨["1", "2 3", "4"], ?_, .cons hc (.cons hc' .single)⟩
      simp only [List.forall₂_cons, List.map, h₁, h₂, h₃, h₄]
      exact ⟨.single, .cons (w := " ") hs .single, .single, .nil⟩
    exact (parse_regrouped hn (hv 99) (.inl ht)).left true
  case right =>
    have ht : Arranged {} (· = ",") (IsWhiteSpace ·.toList)
        [[.int 1], [.int 2, .int 3], [.int 4]] "1 2,3 4" := by
      refine ⟨["1", "2,3", "4"], ?_, .cons (w := " ") hs (.cons (w := " ") hs .single)⟩
      simp only [List.forall₂_cons, List.map, h₁, h₂, h₃, h₄]
      exact ⟨.single, .cons (w := ",") (by rfl) .single, .single, .nil⟩
    exact (parse_regrouped hn (hv 98) (.inr ht)).right

end ArgTree
