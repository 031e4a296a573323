import ArgTree.Proofs.Parser.Suffixes

namespace ArgTree.Parser

open Lookahead

-- Where a reading stands: in a level or in a hash, with what was read of it, in front of the
-- lexemes that are left. `depth` more levels may be opened.
inductive Place
  | items (depth : Nat) (l : Level) (last : List Value) (ts : List Lexeme)
  | entries (depth : Nat) (ready : Bool) (es : Entries Value) (ts : List Lexeme)

-- The place behind the lexeme that opens something nested.
def Nested.place (depth : Nat) (ts : List Lexeme) : Nested → Place
  | .list close    => .items depth (.start (.bracket close)) [] (skipWhitespace ts)
  | .group c first => .items depth (.start (.group c)) first.toList (skipWhitespace ts)
  | .hash          => .entries depth true [] ts

-- The value of an assignment is something nested.
inductive AssignsNested : List Lexeme → Nested → List Lexeme → Prop
  | hash : t.kind = .lCurly → AssignsNested (t :: ts) .hash ts
  | list : t.kind ≠ .lCurly → t.kind.closing? = some close →
           AssignsNested (t :: ts) (.list close) ts

-- An item is something nested, or an assignment of it.
inductive BeginsNested : List Lexeme → Nested → List Lexeme → Prop
  | hash       : t.kind = .lCurly → BeginsNested (t :: ts) .hash ts
  | array      : t.kind = .lSquare → BeginsNested (t :: ts) (.list .rSquare) ts
  | assignment : assignment? ts = some a → AssignsNested a.value what us → BeginsNested ts what us

-- The step from one place to the next, which may be further in. What is nested need not end for
-- that, but a reading that goes on behind it has read all of it.
inductive Next : Place → Place → Prop
  | delimiter : l.endsAt t.kind = false → l.delimiter t.kind = .ok (.proceed, l') →
                t.kind = .whitespace ∨ t.kind = .comma →
                Next (.items d l last (t :: ts)) (.items d l' last ts)
  | group     : l.endsAt t.kind = false → l.delimiter t.kind = .ok (.regroup c, l') →
                t.kind = .whitespace ∨ t.kind = .comma →
                Next (.items (d + 1) l last (t :: ts)) ((Nested.group c last.head?).place d ts)
  | regroup   : l.endsAt t.kind = false → l.delimiter t.kind = .ok (.regroup c, l') →
                t.kind = .whitespace ∨ t.kind = .comma →
                (nested d (.group c last.head?) t ts).Yields group us →
                Next (.items d l last (t :: ts)) (.items d l'.regrouped (group :: last.tail) us)
  | opening   : l.endsAt t.kind = false → l.item t.kind = (.proceed, l') →
                BeginsNested (t :: ts) what us →
                Next (.items (d + 1) l last (t :: ts)) (what.place d us)
  | item      : l.endsAt t.kind = false → l.item t.kind = (.proceed, l') →
                ReadsItem (nested d) (t :: ts) v us →
                Next (.items d l last (t :: ts)) (.items d l' (v :: last) (skipPadding us))
  | comma     : skipWhitespace ts = t :: us → t.kind = .comma →
                Next (.entries d false es ts) (.entries d true es us)
  | value     : assignment? (skipWhitespace ts) = some a → AssignsNested a.value what us →
                Next (.entries (d + 1) true es ts) (what.place d us)
  | entry     : ReadsAssignment (nested d) (skipWhitespace ts) (key, v) us →
                Next (.entries d true es ts) (.entries d false (es.insert key v) us)

-- The places that a reading comes to.
def Visits : Place → Place → Prop :=
  Relation.ReflTransGen Next

-- How a level ends in front of `ts`, with `us` left to be read.
inductive Finishes (l : Level) : (ts us : List Lexeme) → Prop
  | ends   : l.endsAt (kind ts) → l.haveDelimiter = false → Finishes l ts ts
  | closes : t.kind.isClosing → l.close = .bracket t.kind → l.haveDelimiter = false →
             Finishes l (t :: ts) ts
  | lacks  : l.haveItem → l.convention = .comma → t.kind = .escape ∨ t.kind.isElement →
             (∀ k, l.close ≠ .bracket k) → Finishes l (t :: ts) (t :: ts)

-- No lexeme is of the kind that marks the end of the text.
def Proper (ts : List Lexeme) : Prop :=
  ∀ t ∈ ts, t.kind ≠ .endOfText

theorem Proper.of_suffix (h : Proper ts) (hs : us <:+ ts) : Proper us :=
  fun t ht => h t (hs.subset ht)

-- The failures at a place, in what is read there itself and not behind what is opened there. The
-- first one is at the start of a level, before it comes round. An item that lacks a delimiter is
-- one in a bracket and at the top, but a group leaves it to the level that holds the group.
inductive Raises : Place → Fault → Prop
  | start     : kind ts = .comma ∨ (kind ts).isClosing →
                Raises (.items d (.start close) last ts)
                  ⟨if (Level.start close).haveDelimiter then .itemExpected else .invalidCharacter,
                    ts⟩
  | ends      : l.endsAt (kind ts) → l.haveDelimiter →
                Raises (.items d l last ts) ⟨.itemExpected, ts⟩
  | unclosed  : l.endsAt .endOfText = false → Raises (.items d l last []) ⟨.unexpectedEnd, []⟩
  | close     : t.kind.isClosing → l.endsAt t.kind = false → l.close ≠ .bracket t.kind →
                Raises (.items d l last (t :: ts)) ⟨.unexpectedClose, t :: ts⟩
  | closes    : t.kind.isClosing → l.close = .bracket t.kind → l.haveDelimiter →
                Raises (.items d l last (t :: ts)) ⟨.itemExpected, t :: ts⟩
  | delimiter : l.endsAt t.kind = false → l.delimiter t.kind = .error cause →
                t.kind = .whitespace ∨ t.kind = .comma →
                Raises (.items d l last (t :: ts)) ⟨cause, t :: ts⟩
  | group     : l.endsAt t.kind = false → l.delimiter t.kind = .ok (.regroup c, l') →
                t.kind = .whitespace ∨ t.kind = .comma →
                Raises (.items 0 l last (t :: ts)) ⟨.nestingTooDeep, t :: ts⟩
  | other     : l.endsAt t.kind = false → role (t :: ts) = .other → t.kind.isElement = false →
                Raises (.items d l last (t :: ts)) ⟨.invalidCharacter, t :: ts⟩
  | lacks     : l.endsAt t.kind = false → l.item t.kind = (.complete, l') →
                t.kind = .escape ∨ t.kind.isElement → (∀ c, l.close ≠ .group c) →
                Raises (.items d l last (t :: ts)) ⟨.delimiterExpected, t :: ts⟩
  | escape    : l.endsAt t.kind = false → l.item t.kind = (.proceed, l') → t.kind = .escape →
                escaped ts = .error f → Raises (.items d l last (t :: ts)) f
  | region    : l.endsAt t.kind = false → l.item t.kind = (.proceed, l') → t.kind = .lParen →
                verbatim .rParen 0 ts = .error f → Raises (.items d l last (t :: ts)) f
  | opening   : l.endsAt t.kind = false → l.item t.kind = (.proceed, l') →
                BeginsNested (t :: ts) what us → opener :: us <:+ t :: ts →
                Raises (.items 0 l last (t :: ts)) ⟨.nestingTooDeep, opener :: us⟩
  | entries   : skipWhitespace ts = [] → Raises (.entries d ready es ts) ⟨.unexpectedEnd, []⟩
  | noEntry   : skipWhitespace ts = t :: us → t.kind = .rCurly ∨ t.kind = .comma →
                Raises (.entries d true es ts) ⟨.itemExpected, t :: us⟩
  | noComma   : skipWhitespace ts = t :: us → t.kind.isElement →
                Raises (.entries d false es ts) ⟨.delimiterExpected, t :: us⟩
  | entry     : skipWhitespace ts = t :: us → assignment? (t :: us) = none →
                Raises (.entries d ready es ts) ⟨.invalidEntry, t :: us⟩
  | value     : assignment? (skipWhitespace ts) = some a → AssignsNested (opener :: us) what us →
                a.value = opener :: us →
                Raises (.entries 0 true es ts) ⟨.nestingTooDeep, opener :: us⟩

-- What the loop of a level gives when it comes round at a place. The level stops there, or
-- something fails that is raised there, or inside the group or the item that is read there.
-- Otherwise the loop comes round again, and where it does is the next place.
inductive Round (d : Nat) (l : Level) (last : List Value) :
    (ts : List Lexeme) → Outcome (ts.length + 1) (List Value) → Prop
  | stops  : Finishes l ts us → (hu : us.length < ts.length + 1) →
             Round d l last ts (.ok ⟨last.reverse, us, hu⟩)
  | raises : (Proper ts → Raises (.items d l last ts) ⟨cause, ts⟩) →
             Round d l last ts (.fail cause ts)
  | group  : l.endsAt t.kind = false → l.delimiter t.kind = .ok (.regroup c, l') →
             t.kind = .whitespace ∨ t.kind = .comma →
             nested d (.group c last.head?) t ts = .error f → Round d l last (t :: ts) (.error f)
  | item   : l.endsAt t.kind = false → l.item t.kind = (.proceed, l') →
             (t.kind ≠ .endOfText → t.kind = .escape ∨ t.kind.isOpening ∨ t.kind.isElement) →
             Parser.item (nested d) t ts = .error f → Round d l last (t :: ts) (.error f)
  | next   : Next (.items d l last ts) (.items d l' last' us) →
             (hu : us.length + 1 ≤ ts.length + 1) →
             Round d l last ts ((items (nested d) l' last' us).widen hu)

-- The group that a delimiter starts fails, or the loop comes round behind it.
theorem Round.of_regroup {l : Level} {t : Lexeme} {ts : List Lexeme} (he : l.endsAt t.kind = false)
    (hd : l.delimiter t.kind = .ok (.regroup c, l')) (ht : t.kind = .whitespace ∨ t.kind = .comma)
    (hn : ∀ us : List Lexeme, us.length < ts.length + 1 → us.length + 1 ≤ (t :: ts).length + 1) :
    Round d l last (t :: ts) ((nested d (.group c last.head?) t ts).andThen fun ⟨v, us, hu⟩ =>
      (items (nested d) l'.regrouped (v :: last.tail) us).widen (hn us hu)) := by
  cases hg : nested d (.group c last.head?) t ts
  case error => exact .group he hd ht hg
  case ok r  =>
    obtain ⟨v, us, hu⟩ := r
    exact .next (.regroup he hd ht ⟨_, hg, rfl, rfl⟩) (hn us hu)

-- Whatever the loop of a level does, its recursive calls are at the places that come next.
theorem items_round (d : Nat) (l : Level) (last : List Value) (ts : List Lexeme) :
    Round d l last ts (items (nested d) l last ts) := by
  fun_induction items (nested d) l last ts
  case case1 he hd    => exact .raises fun _ => .ends he hd
  case case2 he hd    => exact .stops (.ends he (by simpa using hd)) _
  case case3 he       => exact .raises fun _ => .unclosed (Bool.eq_false_iff.mpr he)
  case case4 hr hc he =>
    exact .raises fun _ => .close (role_eq_close_iff.mp hr) (Bool.eq_false_iff.mpr he) hc
  case case5 hr hc hd _ =>
    exact .raises fun _ => .closes (role_eq_close_iff.mp hr) (by simpa using hc) hd
  case case6 hr hc hd _ =>
    exact .stops (.closes (role_eq_close_iff.mp hr) (by simpa using hc) (by simpa using hd)) _
  -- The cases 7 to 10 are at whitespace, and the cases 11 to 14 are at a comma.
  case case7 hr _ hd he =>
    have hk := role_eq_whitespace_iff.mp hr
    exact .raises fun _ => .delimiter (Bool.eq_false_iff.mpr he) hd (.inl hk)
  case case8 hr _ hd he _ =>
    have hk := role_eq_whitespace_iff.mp hr
    exact .next (.delimiter (Bool.eq_false_iff.mpr he) hd (.inl hk)) _
  case case9 | case13 => exact absurd ‹_› Level.delimiter_ne_complete
  case case10 hr _ _ hd he _ =>
    have hk := role_eq_whitespace_iff.mp hr
    exact .of_regroup (Bool.eq_false_iff.mpr he) hd (.inl hk) _
  case case11 hr _ hd he =>
    have hk := role_eq_comma_iff.mp hr
    exact .raises fun _ => .delimiter (Bool.eq_false_iff.mpr he) hd (.inr hk)
  case case12 hr _ hd he _ =>
    have hk := role_eq_comma_iff.mp hr
    exact .next (.delimiter (Bool.eq_false_iff.mpr he) hd (.inr hk)) _
  case case14 hr _ _ hd he _ =>
    have hk := role_eq_comma_iff.mp hr
    exact .of_regroup (Bool.eq_false_iff.mpr he) hd (.inr hk) _
  case case15 he _ _ _ ho =>
    exact .raises fun _ => .other (Bool.eq_false_iff.mpr he) ho.left (by simpa using ho.right)
  case case16 hl _ hb he hc hw hm ho =>
    refine .raises fun hp => ?_
    obtain ⟨_, _, hn⟩ := Level.of_item_complete hl
    have hk := begins_of_role hc hw hm ho hn (hp _ List.mem_cons_self)
    exact .lacks (Bool.eq_false_iff.mpr he) hl hk (by simp [hb])
  case case17 hl hb he hc hw hm ho =>
    have he := Bool.eq_false_iff.mpr he
    obtain ⟨hi, hv, hn⟩ := Level.of_item_complete hl
    have hk := begins_of_role hc hw hm ho hn fun hk => Level.endsAt_endOfText hb (hk ▸ he)
    exact .stops (.lacks hi hv hk hb) _
  case case18 t ts _ _ hn hl he hc hw hm ho _ =>
    have he := Bool.eq_false_iff.mpr he
    cases Level.proceed_of_item hl hn
    cases hi : item (nested _) t ts
    case error => exact .item he hl (begins_of_dispatched hc hw hm ho) hi
    case ok r  =>
      obtain ⟨v, us, hu⟩ := r
      exact .next (.item he hl (item_yields_iff.mp ⟨_, hi, rfl, rfl⟩)) _

end ArgTree.Parser
