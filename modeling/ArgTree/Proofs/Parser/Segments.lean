import ArgTree.Proofs.Syntax.Completeness

namespace ArgTree

open Lookahead Syntax

-- One behind the other, with something between each two that is as `sep` says.
inductive Joined [Append α] (sep : α → Prop) : List α → α → Prop
  | single : Joined sep [x] x
  | cons   : sep w → Joined sep xs y → Joined sep (x :: xs) (x ++ w ++ y)

theorem Joined.begins {R : List Lexeme → α → Prop} (h : Joined sep rows ts)
    (hr : List.Forall₂ R rows vs) (hb : ∀ ts v, R ts v → ∀ us, (kind (ts ++ us)).begins)
    (us : List Lexeme) : (kind (ts ++ us)).begins := by
  cases h with
  | single =>
    cases hr with
    | cons hv _ => exact hb _ _ hv us
  | cons _ _ =>
    cases hr with
    | cons hv _ =>
      rw [List.append_assoc, List.append_assoc]
      exact hb _ _ hv _

-- What a level makes of a segment: an item stays what it is, and several items become a group.
def Value.unit : List Value → Value
  | [v] => v
  | vs  => .list vs

namespace Parser

-- A row of lexemes is read as the item `v` if no `=` follows and `m` levels may be opened.
def Denotes (m : Nat) (ts : List Lexeme) (v : Value) : Prop :=
  ∀ d us, m ≤ d → Free us → ReadsItem (nested d) (ts ++ us) v us

-- A delimiter in a group.
def Splits (c : Convention) (ws : List Lexeme) : Prop :=
  ∃ t, ws = [t] ∧ c.delimiter? = some t.kind

-- A delimiter at the top level. There may be whitespace around a comma.
inductive Parts : Convention → List Lexeme → Prop
  | whitespace : t.kind = .whitespace → Parts .whitespace [t]
  | comma      : Pad ws (t :: pad) → t.kind = .comma → (∀ u ∈ pad, u.kind = .whitespace) →
                 Parts .comma ws

-- A row of items with the delimiters of a group between them.
def Segment (m : Nat) (c : Convention) (ts : List Lexeme) (vs : List Value) : Prop :=
  ∃ rows, List.Forall₂ (Denotes m) rows vs ∧ Joined (Splits c) rows ts

theorem free_nil : Free [] :=
  nofun

theorem Denotes.begins (h : Denotes m ts v) (us : List Lexeme) : (kind (ts ++ us)).begins := by
  have hr := h m [] le_rfl free_nil
  cases ts
  case nil      => cases hr with | assignment ha => cases ha with | intro ha => contradiction
  case cons t _ => exact hr.begins

theorem Denotes.mono (h : Denotes m ts v) (hm : m ≤ n) : Denotes n ts v :=
  fun d us hd => h d us (hm.trans hd)

theorem Segment.denotes (h : Segment m c ts [v]) : Denotes m ts v := by
  obtain ⟨rows, hv, hj⟩ := h
  cases hv with
  | cons hv hn =>
    cases hn
    cases hj with
    | single     => exact hv
    | cons _ hj  => cases hj

theorem Segment.begins (h : Segment m c ts vs) (us : List Lexeme) : (kind (ts ++ us)).begins := by
  obtain ⟨rows, hv, hj⟩ := h
  exact hj.begins hv (fun _ _ h => h.begins) us

theorem Splits.delimits (h : Splits c ws) (ts : List Lexeme) : Delimits c (ws ++ ts) ts := by
  obtain ⟨t, rfl, ht⟩ := h
  cases c
  case undetermined => contradiction
  case comma        => exact .comma .none (Option.some.inj ht).symm
  case whitespace   => exact .whitespace (Option.some.inj ht).symm

theorem pad_append (h : Pad ts us) (ws : List Lexeme) : Pad (ts ++ ws) (us ++ ws) := by
  cases h with
  | none     => exact .none
  | space ht => exact .space ht

-- A group in the convention `c` ends in front of `ts`, and its last item is no key.
def EndsGroup (c : Convention) (ts : List Lexeme) : Prop :=
  (Level.begun (.group c) c).endsAt (kind (skipPadding ts)) ∧ Free ts

namespace Parts

variable {inner : Inner} {ts : List Lexeme} (h : Parts c ws) (hb : (kind ts).begins)

include h hb

theorem exists_skipPadding : ∃ t pad, skipPadding (ws ++ ts) = t :: (pad ++ ts) ∧
    c.delimiter? = some t.kind ∧ ∀ u ∈ pad, u.kind = .whitespace := by
  cases h with
  | @whitespace t ht =>
    have hs : skipWhitespace (t :: ts) = ts := Pad.eq_of_begins (.space ht) hb
    have hk : (kind (skipWhitespace (t :: ts))).begins := by rwa [hs]
    exact ⟨t, [], skipPadding_of_begins hk, by rw [ht]; rfl, nofun⟩
  | comma hp ht hw =>
    exact ⟨_, _, (pad_append hp ts).skipPadding_eq (.inl ht), by rw [ht]; rfl, hw⟩

theorem endsGroup : EndsGroup c.opposite (ws ++ ts) := by
  constructor
  case left =>
    have ⟨t, _, hs, ht, _⟩ := h.exists_skipPadding hb
    rw [hs]
    simp [Level.endsAt, Level.groupEndsAt, Level.begun, kind, ht,
      Convention.oppositeDelimiter?_opposite]
  case right =>
    cases h with
    | whitespace ht =>
      exact .of_pad (.space ht) (kind_ne_of_begins hb).left (Syntax.Kind.ne_equals_of_begins hb)
    | comma hp ht _ => exact .of_pad (pad_append hp ts) (by simp [kind, ht]) (by simp [kind, ht])

-- The top level goes on behind a delimiter, and over whitespace there.
theorem reads (hc : c' = .undetermined ∨ c' = c)
    (hr : ReadsItems inner (.ready .endOfText c) last ts vs us) :
    ReadsItems inner (.begun .endOfText c') last (skipPadding (ws ++ ts)) vs us := by
  have ⟨t, pad, hs, ht, hw⟩ := h.exists_skipPadding hb
  rw [hs]
  refine .delimiter (Level.endsAt_delimiter trivial ht) (Level.begun_delimiter hc ht)
    (Convention.of_delimiter? ht) ?_
  clear hs
  induction pad
  case nil => exact hr
  case cons u pad hi =>
    rw [List.forall_mem_cons] at hw
    have hu :
        (Level.ready .endOfText c).delimiter u.kind = .ok (.proceed, .ready .endOfText c) := by
      rw [hw.left]
      cases c <;> rfl
    exact .delimiter (by rw [hw.left]; rfl) hu (.inl hw.left) (hi hw.right)

end Parts

-- A group goes on behind its delimiter.
theorem Splits.reads {inner : Inner} (h : Splits c ws) (hb : (kind ts).begins)
    (hr : ReadsItems inner (.ready (.group c) c) last ts vs us) :
    ReadsItems inner (.begun (.group c) c) last (skipPadding (ws ++ ts)) vs us := by
  have ⟨t, hs, ht, _⟩ := (h.delimits ts).exists_skipPadding hb
  have hc : c ≠ .undetermined := by rintro rfl; contradiction
  rw [hs]
  exact .delimiter (Level.endsAt_delimiter ⟨rfl, hc⟩ ht) (Level.begun_delimiter (.inr rfl) ht)
    (Convention.of_delimiter? ht) hr

-- The items of a group, up to where it ends.
theorem readsItems_segment (hd : m ≤ d) (he : EndsGroup c us) (h : Joined (Splits c) rows ts)
    (hv : List.Forall₂ (Denotes m) rows vs) (last : List Value) :
    ReadsItems (nested d) (.ready (.group c) c) last (ts ++ us) (last.reverse ++ vs)
      (skipPadding us) := by
  induction h generalizing vs last
  case single =>
    cases hv with
    | @cons _ v _ _ hv hn =>
      cases hn
      have hr : ReadsItems (nested d) (.begun (.group c) c) (v :: last) (skipPadding us)
        (v :: last).reverse (skipPadding us) := .ends he.left rfl
      rw [List.reverse_cons] at hr
      exact Enters.item ⟨hv.begins us, rfl⟩ (hv d us hd he.right) hr
  case cons hw hj hi =>
    cases hv with
    | @cons _ v _ _ hv hvs =>
      have hb := hj.begins hvs (fun _ _ h => h.begins) us
      have hr := hw.reads hb (hi hvs (v :: last))
      rw [List.reverse_cons, ← List.append_cons] at hr
      rw [List.append_assoc, List.append_assoc]
      exact Enters.item ⟨hv.begins _, rfl⟩ (hv d _ hd ((hw.delimits _).free hb)) hr

-- The top level makes an item or a group of a segment.
theorem Segment.reads (h : Segment m c.opposite ts vs) (he : EndsGroup c.opposite us)
    (hr : ReadsItems (nested (m + 1)) (.begun .endOfText c) (.unit vs :: last) (skipPadding us)
      ws xs) :
    ReadsItems (nested (m + 1)) (.ready .endOfText c) last (ts ++ us) ws xs := by
  obtain ⟨rows, hv, hj⟩ := h
  cases hj with
  | single =>
    cases hv with
    | cons hv hn =>
      cases hn
      exact Enters.item ⟨hv.begins us, rfl⟩ (hv _ us (Nat.le_succ m) he.right) hr
  | cons hw hj =>
    cases hv with
    | @cons _ v _ vs hv hvs =>
      have hb := hj.begins hvs (fun _ _ h => h.begins) us
      have hd := hw.delimits
      have hg := group_reads hb (readsItems_segment le_rfl he hj hvs [v])
      have hu : Value.unit (v :: vs) = .list (v :: vs) := by
        cases hj <;> cases hvs <;> rfl
      rw [List.append_assoc, List.append_assoc]
      exact Enters.group ⟨hv.begins _, rfl⟩ rfl rfl (hv _ _ (Nat.le_succ m) ((hd _).free hb)) (hd _)
        hb (fun _ => nested_yields_iff.mpr ⟨m, rfl, hg⟩) (hu ▸ hr)

-- The segments of a text behind its first item.
theorem readsItems_segments (h : Joined (Parts c) rows ts)
    (hs : List.Forall₂ (Segment m c.opposite) rows segments) (last : List Value) :
    ReadsItems (nested (m + 1)) (.ready .endOfText c) last ts (last.reverse ++ segments.map .unit)
      [] := by
  induction h generalizing segments last
  case single =>
    cases hs with
    | @cons ts vs _ _ hs hn =>
      cases hn
      have hr : ReadsItems (nested (m + 1)) (.begun .endOfText c) (.unit vs :: last)
        (skipPadding []) (.unit vs :: last).reverse [] := .ends rfl rfl
      rw [List.reverse_cons] at hr
      simpa using hs.reads ⟨rfl, free_nil⟩ hr
  case cons hw hj hi =>
    cases hs with
    | @cons _ vs _ _ hs hss =>
      have hb := hj.begins hss (fun _ _ h => h.begins) []
      rw [List.append_nil] at hb
      have hr := hw.reads hb (.inr rfl) (hi hss (.unit vs :: last))
      rw [List.reverse_cons, ← List.append_cons] at hr
      rw [List.append_assoc]
      exact hs.reads (hw.endsGroup hb) hr

-- A text of segments, the first of which is an item.
theorem readsLevel_segments (hv : Denotes m ts v) (hw : Parts c ws) (h : Joined (Parts c) rows us)
    (hs : List.Forall₂ (Segment m c.opposite) rows segments) :
    ReadsLevel (nested (m + 1)) .endOfText none (ts ++ ws ++ us) (v :: segments.map .unit) [] := by
  have hb := h.begins hs (fun _ _ h => h.begins) []
  rw [List.append_nil] at hb
  rw [List.append_assoc]
  refine level_reads .none (hv.begins _) ?_
  have hr := hw.reads hb (.inl rfl) (readsItems_segments h hs [v])
  exact Enters.item ⟨hv.begins _, rfl⟩ (hv _ _ (Nat.le_succ m) (hw.endsGroup hb).right) hr

end Parser

end ArgTree
