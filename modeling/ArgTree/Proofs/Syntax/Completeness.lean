import ArgTree.Proofs.Syntax.Boundaries

namespace ArgTree

open ArgTree.Parser Lookahead

namespace Syntax

-- No `=` follows, which would make an assignment of an element.
def Free (ts : List Lexeme) : Prop :=
  kind (skipWhitespace ts) ≠ .equals

-- A level in the convention `c` goes on with a unit that begins with a lexeme of kind `k`.
def Enters (l : ArgTree.Level) (close : Close) (c : Convention) (k : Kind) : Prop :=
  k.begins ∧ l.item k = (.proceed, .begun close c)

-- A group ends in front of `ts`.
structure GroupEnds (c : Convention) (ts : List Lexeme) : Prop where
  pad     : Pad ts (skipPadding ts)
  follows : Follows c (skipPadding ts)
  free    : Free ts

theorem endsAt_of_begins {l : ArgTree.Level} (h : k.begins) : l.endsAt k = false := by
  have ⟨hw, hm, hc, he⟩ := kind_ne_of_begins h
  cases hl : l.close <;> simp only [ArgTree.Level.endsAt, ArgTree.Level.groupEndsAt, hl]
  case endOfText => simpa using he
  case group c   => cases c <;> simp [he, hc, Convention.oppositeDelimiter?, Ne.symm hw, Ne.symm hm]

theorem Pad.skipPadding_eq (h : Pad ts us)
    (hk : kind us = .comma ∨ kind us = .endOfText ∨ (kind us).isClosing) : skipPadding ts = us := by
  have hw : kind us ≠ .whitespace := by
    intro hw
    simp [hw, Kind.isClosing, Kind.opening?] at hk
  rw [skipPadding, h.skipWhitespace_eq hw]
  exact if_pos hk

theorem Follows.of_endsAt (h : Follows c (t :: ts))
    (he : (ArgTree.Level.begun (.group c) c).endsAt t.kind = false) :
    c = .comma ∧ (t.kind = .escape ∨ t.kind.isElement) := by
  simp only [ArgTree.Level.endsAt, ArgTree.Level.groupEndsAt, ArgTree.Level.begun,
    Bool.or_eq_false_iff, decide_eq_false_iff_not] at he
  rcases h with h | h | h | h
  · exact absurd h he.left
  · exact absurd h (by simp [kind, he.right.left])
  · exact absurd h he.right.right
  · exact h

theorem Ends.reads {inner : Inner} (h : Ends close xs us) (hf : close.Fits c) :
    ReadsItems inner (.begun close c) last (skipPadding xs) last.reverse us := by
  cases h with
  | endOfText hp =>
    rw [hp.skipPadding_eq (.inr <| .inl rfl)]
    exact .ends rfl rfl
  | bracket hk hp =>
    rw [hp.skipPadding_eq (.inr <| .inr hk)]
    exact .closes hk rfl rfl
  | group hp hs h =>
    obtain ⟨rfl, _⟩ := hf
    rw [hs]
    cases us
    case nil => exact .ends rfl rfl
    case cons t us =>
      by_cases he : (ArgTree.Level.begun (.group c) c).endsAt t.kind
      case pos => exact .ends he rfl
      case neg =>
        have he := Bool.eq_false_iff.mpr he
        obtain ⟨rfl, hk⟩ := h.of_endsAt he
        exact .lacks he (ArgTree.Level.begun_item_complete hk) hk nofun

theorem Free.of_pad (h : Pad ts us) (hw : kind us ≠ .whitespace) (he : kind us ≠ .equals) :
    Free ts := by
  rwa [Free, h.skipWhitespace_eq hw]

theorem Kind.ne_equals_of_begins {k : Kind} (h : k.begins) : k ≠ .equals := by
  rintro rfl
  simp [Kind.begins, Kind.isOpening, Kind.closing?, Kind.isElement] at h

theorem Kind.ne_of_isClosing {k : Kind} (h : k.isClosing) : k ≠ .whitespace ∧ k ≠ .equals := by
  constructor <;> rintro rfl <;> contradiction

theorem Delimits.exists_skipPadding (h : Delimits c ts us) (hb : (kind us).begins) :
    ∃ t, skipPadding ts = t :: us ∧ c.delimiter? = some t.kind ∧ Pad ts (t :: us) := by
  cases h with
  | whitespace ht =>
    refine ⟨_, skipPadding_of_begins ?_, by rw [ht]; rfl, .none⟩
    rwa [Pad.eq_of_begins (.space ht) hb]
  | comma hp ht => exact ⟨_, hp.skipPadding_eq (.inl ht), by rw [ht]; rfl, hp⟩

theorem Delimits.free (h : Delimits c ts us) (hb : (kind us).begins) : Free ts := by
  cases h with
  | whitespace ht =>
    exact .of_pad (.space ht) (kind_ne_of_begins hb).left (Kind.ne_equals_of_begins hb)
  | comma hp ht   => exact .of_pad hp (by simp [kind, ht]) (by simp [kind, ht])

theorem Separates.free (h : Separates c ts us) (hb : (kind us).begins) : Free ts := by
  have ha : Free us := .of_pad .none (kind_ne_of_begins hb).left (Kind.ne_equals_of_begins hb)
  cases h with
  | delimiter h => exact h.free hb
  | adjacent    => exact ha
  | opening _   => exact ha

theorem Ends.free (h : Ends close ts us) (hg : close.groups) : Free ts := by
  cases h with
  | endOfText hp  => exact .of_pad hp nofun nofun
  | bracket hk hp =>
    have ⟨hw, he⟩ := Kind.ne_of_isClosing hk
    exact .of_pad hp hw he
  | group         => contradiction

theorem Ends.groupEnds (h : Ends close ts us) (hg : close.groups) : GroupEnds c ts := by
  have hf := h.free hg
  cases h with
  | endOfText hp  =>
    have hs := hp.skipPadding_eq (.inr <| .inl rfl)
    exact ⟨hs ▸ hp, hs ▸ .inl rfl, hf⟩
  | bracket hk hp =>
    have hs := hp.skipPadding_eq (.inr <| .inr hk)
    exact ⟨hs ▸ hp, hs ▸ .inr (.inl hk), hf⟩
  | group         => contradiction

theorem Separates.groupEnds (h : Separates c ts us) (hn : ¬Separates c.opposite ts us)
    (hb : (kind us).begins) : GroupEnds c.opposite ts := by
  have hf := h.free hb
  cases h with
  | delimiter h =>
    have ⟨t, hs, ht, hp⟩ := h.exists_skipPadding hb
    exact ⟨hs ▸ hp, hs ▸ .inr (.inr <| .inl (c.oppositeDelimiter?_opposite.trans ht)), hf⟩
  | adjacent    =>
    have hs := skipPadding_eq_of_begins hb
    refine ⟨?_, ?_, hf⟩ <;> rw [hs]
    case refine_1 => exact .none
    case refine_2 =>
      refine .inr <| .inr <| .inr ⟨rfl, hb.imp_right fun hk => hk.resolve_left fun ho => ?_⟩
      exact hn (.opening ho)
  | opening _   => exact absurd .adjacent hn

section

variable {inner : Inner} {close : Close} {l : ArgTree.Level}

-- A level that has read an item goes on behind a separator, which may decide the convention.
theorem Separates.reads (h : Separates c ts us) (hb : (kind us).begins) (hf : close.Fits c)
    (hc : c' = .undetermined ∧ (c = .comma → Delimits c ts us) ∨ c' = c)
    (hr : ∀ l, Enters l close c (kind us) → ReadsItems inner l last us vs xs) :
    ReadsItems inner (.begun close c') last (skipPadding ts) vs xs := by
  have hd (h : Delimits c ts us) :
      ReadsItems inner (.begun close c') last (skipPadding ts) vs xs := by
    have ⟨t, hs, ht, _⟩ := h.exists_skipPadding hb
    rw [hs]
    exact .delimiter (ArgTree.Level.endsAt_delimiter hf ht)
      (ArgTree.Level.begun_delimiter (hc.imp_left And.left) ht) (Convention.of_delimiter? ht)
      (hr _ ⟨hb, rfl⟩)
  cases h with
  | delimiter h => exact hd h
  | adjacent    =>
    rw [skipPadding_eq_of_begins hb]
    exact hr _ ⟨hb, by rcases hc with ⟨rfl, _⟩ | rfl <;> rfl⟩
  | opening ho  =>
    rcases hc with ⟨_, hc⟩ | rfl
    case inl => exact hd (hc rfl)
    case inr =>
      rw [skipPadding_eq_of_begins hb]
      exact hr _ ⟨hb, by simp [ArgTree.Level.item, ArgTree.Level.begun, ho]⟩

theorem Enters.item (h : Enters l close c (kind ts)) (hi : ReadsItem inner ts v us)
    (hr : ReadsItems inner (.begun close c) (v :: last) (skipPadding us) vs xs) :
    ReadsItems inner l last ts vs xs := by
  cases ts
  case nil      => cases hi with | assignment ha => cases ha with | intro ha => contradiction
  case cons t _ => exact .item (endsAt_of_begins h.left) h.right hi hr

-- A group is read behind its first item.
theorem Enters.group (h : Enters l close c (kind ts)) (ho : o = c.opposite) (hg : close.groups)
    (hi : ReadsItem inner ts v us) (hd : Delimits o us ws) (hb : (kind ws).begins)
    (hn : ∀ t, (inner (.group o (some v)) t ws).Yields g xs)
    (hr : ReadsItems inner (.begun close c) (g :: last) xs vs ys) :
    ReadsItems inner l last ts vs ys := by
  subst ho
  have ⟨t, hs, ht, _⟩ := hd.exists_skipPadding hb
  refine h.item hi ?_
  rw [hs]
  exact .regroup (ArgTree.Level.endsAt_delimiter_of_groups hg ht)
    (ArgTree.Level.begun_delimiter_opposite ht) (Convention.of_delimiter? ht) (hn t) hr

theorem assignment_reads (ht : t.kind.isElement) (hp : Pad ts (u :: us)) (hu : u.kind = .equals)
    (hp' : Pad us vs) (hv : (kind vs).isElement ∨ (kind vs).isOpening)
    (h : ReadsAssigned inner vs v ws) : ReadsAssignment inner (t :: ts) (t.text, v) ws := by
  have hs : skipWhitespace ts = u :: us := hp.skipWhitespace_eq (by simp [kind, hu])
  have hs' : skipWhitespace us = vs := hp'.eq_of_begins (.inr hv.symm)
  exact .intro (assignment?_eq_some_iff.mpr ⟨u, us, hs, hu, ht, rfl, hs'.symm ▸ hv⟩) (hs'.symm ▸ h)

theorem element_reads (ht : t.kind.isElement) (hf : Free ts) :
    ReadsItem inner (t :: ts) (.ofScalar t.value) ts := by
  refine .element ht ?_
  cases ha : assignment? (t :: ts)
  case none => rfl
  case some =>
    have ⟨u, us, hu, hk, _⟩ := assignment?_eq_some_iff.mp ha
    exact absurd (by rw [hu]; exact hk) hf

theorem nested_yields (hd : d < m) (h : ReadsNested (nested (m - (d + 1))) what ts v us)
    (t : Lexeme) : (nested (m - d) what t ts).Yields v us :=
  nested_yields_iff.mpr ⟨m - (d + 1), by omega, h⟩

theorem level_reads (hw : Pad ts us) (hb : (kind us).begins)
    (h : ReadsItems inner (.start close) first.toList us vs xs) :
    ReadsLevel inner close first ts vs xs := by
  have ⟨_, hm, hc, _⟩ := kind_ne_of_begins hb
  have hs := hw.eq_of_begins hb
  exact ⟨hs ▸ hm, hs ▸ hc, hs ▸ h⟩

theorem group_reads (hb : (kind ts).begins)
    (h : ReadsItems inner (.start (.group c)) [v] ts vs us) :
    ReadsNested inner (.group c (some v)) ts (.list vs) us :=
  .group (level_reads .none hb h)

end

mutual

theorem Item.reads (h : Item m d ts v us) (hf : Free us) : ReadsItem (nested (m - d)) ts v us := by
  match h with
  | .element ht       => exact element_reads ht hf
  | .escape ht hr     => exact .escape ht hr
  | .verbatim ht hb hu => exact .verbatim ht hb hu
  | .hash hd h        =>
    have ⟨t, _, he, ht, hn⟩ := h.reads
    rw [he]
    exact .hash ht (nested_yields hd hn t)
  | .array hd ht h hu => exact .array ht (nested_yields hd (hu ▸ h.reads rfl (hu ▸ rfl)) _)
  | .assignment h     => exact .assignment h.reads

theorem Assignment.reads (h : Assignment m d ts e us) :
    ReadsAssignment (nested (m - d)) ts e us := by
  match h with
  | .intro ht hp hu hp' hv => exact assignment_reads ht hp hu hp' hv.begins hv.reads

theorem Assigned.reads (h : Assigned m d ts v us) : ReadsAssigned (nested (m - d)) ts v us := by
  match h with
  | .element ht      => exact .element ht
  | .hash hd h       =>
    have ⟨t, _, he, ht, hn⟩ := h.reads
    rw [he]
    exact .hash ht (nested_yields hd hn t)
  | .list hd ht h hu =>
    have hc := Kind.closing?_eq_some_iff.mp hu
    refine .list ?_ hu (nested_yields hd (h.reads rfl (by rw [Kind.isClosing, hc]; rfl)) _)
    rcases ht with ht | ht <;> simp [ht]

theorem Hash.reads (h : Hash m d ts v us) : ∃ t ts', ts = t :: ts' ∧ t.kind = .lCurly ∧
    ReadsNested (nested (m - d)) .hash ts' v us := by
  match h with
  | .intro ht hp ha hq =>
    have hs := hp.eq_of_begins (.inr <| .inr ha.isElement)
    exact ⟨_, _, rfl, ht, .hash <| .entry (hs ▸ ha.reads) (hq.reads _)⟩

theorem HashTail.reads (h : HashTail m d ts ps us) (es : Entries Value) :
    ReadsEntries (nested (m - d)) false es ts (ps.foldl (fun es (key, v) => es.insert key v) es)
      us := by
  match h with
  | .close hp hk       => exact .close (hp.skipWhitespace_eq (by simp [kind, hk])) hk
  | .comma hp hk ha hq =>
    have hs := Pad.none.eq_of_begins (.inr <| .inr ha.isElement)
    have ha := ha.reads
    refine .comma (hp.skipWhitespace_eq (by simp [kind, hk])) hk <| .entry ?_ (hq.reads _)
    rwa [hs]

-- A level that a bracket closes.
theorem Level.reads (h : Level m d ts vs xs) (hx : xs = u :: us) (hu : u.kind.isClosing) :
    ReadsNested (nested (m - d)) (.list u.kind) ts (.list vs) us := by
  match h with
  | .intro hp hb hp' =>
    exact .list <| level_reads hp hb.begins <| hb.reads (.bracket hu (hx ▸ hp')) trivial

theorem Body.reads {close : Close} (h : Body m d ts vs xs) (he : Ends close xs us)
    (hf : close.Fits .undetermined) :
    ReadsItems (nested (m - d)) (.start close) [] ts vs us := by
  have hl : Enters (.start close) close .undetermined (kind ts) :=
    ⟨h.begins, by rw [ArgTree.Level.start_of_fits hf]; rfl⟩
  match h with
  | .single h          => exact hl.item (h.reads (he.free hf.groups)) (he.reads hf)
  | .whitespace h hs h' =>
    have hi := h.reads (hs.free h'.begins)
    have hf' : close.Fits .whitespace := hf.trans (.inl rfl)
    refine hl.item hi <| hs.reads h'.begins hf' (.inl ⟨rfl, nofun⟩) fun l hl' => ?_
    exact h'.reads nofun hf.groups hf' he (he.free hf.groups) hl'
  | .comma h hs h'     =>
    have hi := h.reads (hs.free h'.begins)
    have hf' : close.Fits .comma := hf.trans (.inl rfl)
    have hs' := Separates.delimiter hs
    refine hl.item hi <| hs'.reads h'.begins hf' (.inl ⟨rfl, fun _ => hs⟩) fun l hl' => ?_
    exact h'.reads nofun hf.groups hf' he (he.free hf.groups) hl'

theorem Units.reads {close : Close} {l : ArgTree.Level} (h : Units m d c groups ts vs xs)
    (hc : c ≠ .undetermined) (hg : close.groups = groups) (hf : close.Fits c)
    (he : Ends close xs us) (hfr : Free xs) (hl : Enters l close c (kind ts)) :
    ReadsItems (nested (m - d)) l last ts (last.reverse ++ vs) us := by
  match h with
  | .item h =>
    exact hl.item (h.reads hfr) (List.reverse_cons ▸ he.reads hf)
  | .group h =>
    exact h.reads rfl hc hg (he.groupEnds hg) hl (List.reverse_cons ▸ he.reads hf)
  | .itemMore h hs h' =>
    have hi := h.reads (hs.free h'.begins)
    refine hl.item hi <| hs.reads h'.begins hf (.inr rfl) fun l hl' => ?_
    rw [List.append_cons, ← List.reverse_cons]
    exact h'.reads hc hg hf he hfr hl'
  | .groupMore h hs hn h' =>
    refine h.reads rfl hc hg (hs.groupEnds hn h'.begins) hl ?_
    refine hs.reads h'.begins hf (.inr rfl) fun l hl' => ?_
    rw [List.append_cons, ← List.reverse_cons]
    exact h'.reads hc hg hf he hfr hl'

theorem Group.reads {close : Close} {l : ArgTree.Level} (h : Group m d o ts g xs)
    (ho : o = c.opposite) (hc : c ≠ .undetermined) (hg : close.groups) (he : GroupEnds o xs)
    (hl : Enters l close c (kind ts))
    (hr : ReadsItems (nested (m - d)) (.begun close c) (g :: last) (skipPadding xs) vs ys) :
    ReadsItems (nested (m - d)) l last ts vs ys := by
  match h with
  | .intro hd hv hs h' =>
    have hi := hv.reads (hs.free h'.begins)
    have hc' : o ≠ .undetermined := fun hu => hc <| Convention.opposite_eq_undetermined (ho ▸ hu)
    have hf : (Close.group o).Fits o := ⟨rfl, hc'⟩
    have he' : Ends (.group o) xs (skipPadding xs) := .group he.pad rfl he.follows
    refine hl.group ho hg hi hs h'.begins (nested_yields hd <| group_reads h'.begins ?_) hr
    exact h'.reads hc' rfl hf he' he.free ⟨h'.begins, rfl⟩

end

end Syntax

end ArgTree
