import ArgTree.Proofs.Parser.Suffixes
import ArgTree.Proofs.Written.Texts

namespace ArgTree

open Expression Lookahead Value Written

-- Lexemes that are cut from their own text again.
def Expression.Cut (ts : List Lexeme) : Prop :=
  Lexes (Lexeme.textOf ts).toList ts

theorem Expression.Cut.of_isInfix (h : Cut ts) (hi : us <:+: ts) : Cut us :=
  Lexes.of_isInfix h hi

theorem Expression.Cut.lexes_of_mem (h : Cut ts) (ht : t ∈ ts) : Lexes t.text.toList [t] := by
  have ⟨xs, ys, he⟩ := List.append_of_mem ht
  have hc : Cut [t] := h.of_isInfix ⟨xs, ys, by simp [he]⟩
  simpa [Cut, Lexeme.textOf] using hc

namespace Parser

-- The values that are read have no NaN in them.
abbrev Sound : (String → Prop) → Value → Prop :=
  WellFormed (· ≠ .nan)

theorem sound_element (h : Cut (t :: ts)) (he : t.kind.isElement) :
    Sound (isBare ·) (.ofScalar t.value) := by
  have hl := h.lexes_of_mem List.mem_cons_self
  have ⟨_, ht⟩ := hl.takes_of_mem List.mem_cons_self
  by_cases hn : t.kind = .number
  case pos =>
    rcases ht.value_of_number hn with ⟨n, hv⟩ | ⟨f, hv, hf⟩
    case inl => exact hv ▸ .int
    case inr => exact hv ▸ .float hf
  case neg => exact ht.value_eq_text hn ▸ .str (isBare_of_lexes hl he hn)

theorem Sound.toItem (h : Sound (isBare ·) v) : Sound (isItem ·) v :=
  h.mono fun s hs => by simp [isItem, hs]

-- The item that a group begins with.
def Nested.first : Nested → List Value
  | .group _ first => first.toList
  | _              => []

-- Reading what is nested gives a list or a map that is sound, if it is read in a text.
def IsSound (inner : Inner) : Prop :=
  ∀ what opener ts v us, (inner what opener ts).Yields v us → Cut ts →
    (∀ w ∈ what.first, Sound (isItem ·) w) →
    Cut us ∧ v.isScalar = false ∧ ∀ strings, Sound strings v

variable {inner : Inner}

theorem ReadsAssigned.sound (hi : IsSound inner) (h : ReadsAssigned inner ts v us) (hc : Cut ts) :
    Sound (isBare ·) v ∧ Cut us := by
  have hc' := hc.of_isInfix (List.tail_suffix ts).isInfix
  cases h
  case hash h =>
    have ⟨hu, _, hv⟩ := hi _ _ _ _ _ h hc' nofun
    exact ⟨hv _, hu⟩
  case list h =>
    have ⟨hu, _, hv⟩ := hi _ _ _ _ _ h hc' nofun
    exact ⟨hv _, hu⟩
  case element he => exact ⟨sound_element hc he, hc'⟩

theorem ReadsAssignment.sound (hi : IsSound inner) (h : ReadsAssignment inner ts (k, v) us)
    (hc : Cut ts) : isKey k ∧ Sound (isBare ·) v ∧ Cut us := by
  cases h
  case intro a ha hv =>
    have ⟨hs, hk, he⟩ := suffix_of_assignment? ha
    have ⟨hv, hu⟩ := hv.sound hi (hc.of_isInfix hs.isInfix)
    exact ⟨isKey_of_lexes (hc.lexes_of_mem hk) he, hv, hu⟩

theorem ReadsItem.sound (hi : IsSound inner) (h : ReadsItem inner ts v us) (hc : Cut ts) :
    Sound (isItem ·) v ∧ Cut us := by
  cases h
  case escape run t ht hr =>
    have hr := isEscapable_of_escaped (hc.of_isInfix ⟨[t], us, by simp⟩) hr
    exact ⟨.str (by simp [isItem, hr]), hc.of_isInfix ⟨t :: run, [], by simp⟩⟩
  case verbatim region t u ht hb hu =>
    have hr := isVerbatim_of_balanced (hc.of_isInfix ⟨[], us, by simp⟩) ht hb hu
    exact ⟨.str (by rw [isItem, hr]; simp), hc.of_isInfix ⟨t :: region ++ [u], [], by simp⟩⟩
  case hash h =>
    have ⟨hu, _, hv⟩ := hi _ _ _ _ _ h (hc.of_isInfix (List.suffix_cons ..).isInfix) nofun
    exact ⟨hv _, hu⟩
  case array h =>
    have ⟨hu, _, hv⟩ := hi _ _ _ _ _ h (hc.of_isInfix (List.suffix_cons ..).isInfix) nofun
    exact ⟨hv _, hu⟩
  case assignment ha =>
    have ⟨hk, hv, hu⟩ := ha.sound hi hc
    exact ⟨.map nofun (by simp [Entries.keys]) (by simpa using hk) (by simpa using hv), hu⟩
  case element he _ =>
    exact ⟨(sound_element hc he).toItem, hc.of_isInfix (List.suffix_cons ..).isInfix⟩

-- Entries that can be those of a map, apart from that there may be none.
structure SoundEntries (es : Entries Value) : Prop where
  nodup  : es.keys.Nodup
  keys   : ∀ e ∈ es, isKey e.1
  values : ∀ e ∈ es, Sound (isBare ·) e.2

theorem SoundEntries.insert (h : SoundEntries es) (hk : isKey k) (hv : Sound (isBare ·) v) :
    SoundEntries (es.insert k v) where
  nodup := Entries.nodup_keys_insert h.nodup k v
  keys e he := by
    rcases Entries.mem_insert he with rfl | he
    · exact hk
    · exact h.keys e he
  values e he := by
    rcases Entries.mem_insert he with rfl | he
    · exact hv
    · exact h.values e he

theorem ReadsEntries.sound (hi : IsSound inner) (h : ReadsEntries inner ready es ts fs us)
    (hc : Cut ts) (he : SoundEntries es) (hr : ready = false → es ≠ []) :
    SoundEntries fs ∧ fs ≠ [] ∧ Cut us := by
  have hs {ts : List Lexeme} (hc : Cut ts) : Cut (skipWhitespace ts) :=
    hc.of_isInfix (skipWhitespace_suffix ts).isInfix
  induction h
  case close hw _ =>
    have hc := hw ▸ hs hc
    exact ⟨he, hr rfl, hc.of_isInfix (List.suffix_cons ..).isInfix⟩
  case comma hw _ _ ih =>
    have hc := hw ▸ hs hc
    exact ih (hc.of_isInfix (List.suffix_cons ..).isInfix) he nofun
  case entry ha _ ih =>
    have ⟨hk, hv, hu⟩ := ha.sound hi (hs hc)
    exact ih hu (he.insert hk hv) fun _ => Entries.insert_ne_nil _ _ _

theorem ReadsItems.sound (hi : IsSound inner) (h : ReadsItems inner l last ts vs us)
    (hc : Cut ts) (hl : ∀ v ∈ last, Sound (isItem ·) v) :
    (∀ v ∈ vs, Sound (isItem ·) v) ∧ Cut us := by
  induction h
  case ends => exact ⟨by simpa using hl, hc⟩
  case closes => exact ⟨by simpa using hl, hc.of_isInfix (List.suffix_cons ..).isInfix⟩
  case delimiter ih => exact ih (hc.of_isInfix (List.suffix_cons ..).isInfix) hl
  case regroup last _ _ _ _ hg _ ih =>
    have hf : ∀ w ∈ last.head?.toList, Sound (isItem ·) w := by
      cases last <;> simp_all [Option.toList]
    have ⟨hu, _, hv⟩ := hi _ _ _ _ _ hg (hc.of_isInfix (List.suffix_cons ..).isInfix) hf
    refine ih hu fun w hw => ?_
    rcases List.mem_cons.mp hw with rfl | hw
    · exact hv _
    · exact hl w (List.mem_of_mem_tail hw)
  case lacks => exact ⟨by simpa using hl, hc⟩
  case item hr _ ih =>
    have ⟨hv, hu⟩ := hr.sound hi hc
    refine ih (hu.of_isInfix (skipPadding_suffix _).isInfix) fun w hw => ?_
    rcases List.mem_cons.mp hw with rfl | hw
    · exact hv
    · exact hl w hw

-- No item that was read is dropped.
theorem ReadsItems.length_le (h : ReadsItems inner l last ts vs us) : last.length ≤ vs.length := by
  induction h
  case ends | closes | lacks => simp
  case delimiter ih => exact ih
  case regroup last _ _ _ _ _ _ ih =>
    cases last
    case nil => simp
    case cons => simpa using ih
  case item ih => exact Nat.le_of_succ_le ih

-- An item must follow a delimiter.
theorem ReadsItems.length_lt (h : ReadsItems inner l last ts vs us) (hi : l.haveItem = false)
    (hd : l.haveDelimiter = true) : last.length < vs.length := by
  induction h
  case ends hl        => simp [hl] at hd
  case closes hl      => simp [hl] at hd
  case delimiter hl _ _ ih =>
    have ⟨hi, hd⟩ := Level.delimited_of_delimiter hl
    exact ih hi hd
  case regroup hl _ _ _ _ => simp [Level.haveItem_of_regroup hl] at hi
  case lacks hl _ _       => simp [Level.of_item_complete hl] at hi
  case item h _           => exact h.length_le

theorem skipWhitespace_eq_nil_iff : skipWhitespace ts = [] ↔ ∀ t ∈ ts, t.kind = .whitespace := by
  simp [skipWhitespace]

-- A level that does not end at once has an item.
theorem ReadsLevel.ne_nil (h : ReadsLevel inner close first ts vs us)
    (he : (Level.start close).haveDelimiter = true ∨
      (Level.start close).endsAt (kind (skipWhitespace ts)) = false) : vs ≠ [] := by
  have ⟨hm, hc, hi⟩ := h
  have hw := kind_skipWhitespace ts
  have hs : (Level.start close).haveItem = false := by cases close <;> rfl
  generalize skipWhitespace ts = ts at *
  cases hi
  case ends                => simp_all
  case closes ht _ _       => exact absurd ht (by simpa [kind] using hc)
  case delimiter ht _ _    => simp_all [kind]
  case regroup ht _ _ _    => simp_all [kind]
  case lacks _ _ hl _      => simp [Level.of_item_complete hl] at hs
  case item hi =>
    have hl := hi.length_le
    rintro rfl
    contradiction

theorem nested_sound (depth : Nat) : IsSound (nested depth) := by
  intro what opener ts v us h
  refine nested_induction (fun d hi what ts v us h hc hf => ?_) h
  have hw := hc.of_isInfix (skipWhitespace_suffix ts).isInfix
  cases h
  case list h =>
    have ⟨hv, hu⟩ := h.items.sound hi hw nofun
    have hn := h.ne_nil (.inr rfl)
    exact ⟨hu, rfl, fun _ => .list hn hv⟩
  case group h =>
    have ⟨hv, hu⟩ := h.items.sound hi hw hf
    have hn := h.ne_nil (.inl rfl)
    exact ⟨hu, rfl, fun _ => .list hn hv⟩
  case hash h =>
    have ⟨he, hn, hu⟩ := h.sound hi hc ⟨by simp [Entries.keys], nofun, nofun⟩ nofun
    exact ⟨hu, rfl, fun _ => .map hn he.nodup he.keys he.values⟩

end Parser

namespace TokenSequence

open ArgTree.Parser

theorem cut_lexemesFrom {text : String} (h : ofSource text = .ok s) (pos : Nat) :
    Cut (s.lexemesFrom pos) :=
  Lexes.of_isInfix (lexes_of_ofSource h) (List.drop_suffix ..).isInfix

theorem isRoot_ofTopLevel (h : ∀ v ∈ vs, Sound (isItem ·) v) (unwrap : Bool) :
    (ofTopLevel unwrap vs).IsRoot (· ≠ .nan) := by
  simp only [ofTopLevel]
  split
  case h_1 => exact .inr ⟨rfl, (h _ (by simp)).of_not_isScalar rfl⟩
  case h_2 => exact .inr ⟨rfl, (h _ (by simp)).of_not_isScalar rfl⟩
  case h_3 =>
    cases vs
    case nil  => exact .inl rfl
    case cons => exact .inr ⟨rfl, .list nofun h⟩

theorem ofTopLevel_eq_nil_iff (h : ∀ v ∈ vs, Sound (isItem ·) v) (unwrap : Bool) :
    ofTopLevel unwrap vs = .list [] ↔ vs = [] := by
  simp only [ofTopLevel]
  split
  case h_1 items =>
    have ⟨hn, _⟩ : items ≠ [] ∧ True := by
      cases h (.list items) (by simp)
      case list hn _ => exact ⟨hn, trivial⟩
    simpa using hn
  case h_2 => simp
  case h_3 => simp

-- Whatever an expression is read as is well formed, and it is the empty list if there is nothing
-- but white space to read.
theorem isRoot_of_parse {text : String} (h : ofSource text = .ok s) (hp : s.parse o = .ok v) :
    v.IsRoot (· ≠ .nan) ∧ (v = .list [] ↔ ∀ t ∈ s.lexemesFrom o.start, t.kind = .whitespace) := by
  have ⟨vs, hl, hv⟩ := parse_eq_ok_iff.mp hp
  have hc := (cut_lexemesFrom h o.start).of_isInfix (skipWhitespace_suffix _).isInfix
  have ⟨hs, _⟩ := hl.items.sound (nested_sound o.maxDepth) hc nofun
  refine ⟨hv ▸ isRoot_ofTopLevel hs _, ?_⟩
  rw [hv, ofTopLevel_eq_nil_iff hs, ← skipWhitespace_eq_nil_iff]
  constructor
  case mp =>
    rintro rfl
    cases ht : Lookahead.skipWhitespace (s.lexemesFrom o.start)
    case nil => rfl
    case cons t ts =>
      have ⟨_, htk⟩ := (hc.lexes_of_mem (t := t) (by simp [ht])).takes_of_mem List.mem_cons_self
      refine absurd rfl (hl.ne_nil (.inr ?_))
      simpa [ht, kind, Level.endsAt, Level.start] using htk.kind_ne_endOfText
  case mpr =>
    intro hn
    have hi := hl.items
    rw [hn] at hi
    cases hi
    rfl

theorem isRoot_of_parse_group : ∃ s v, ofSource "a (b),c" = .ok s ∧ s.parse = .ok v ∧
    v = .list [.str "a", .list [.str "(b)", .str "c"]] ∧ v.IsRoot (· ≠ .nan) := by
  have hv : ArgTree.parse "a (b),c" =
      .ok (.list [.str "a", .list [.str "(b)", .str "c"]]) := by cbv
  cases hs : ofSource "a (b),c" <;> simp only [ArgTree.parse, hs] at hv
  case error => contradiction
  case ok s  => exact ⟨s, _, rfl, hv, rfl, (isRoot_of_parse hs hv).left⟩

end TokenSequence

end ArgTree
