import ArgTree.Proofs.Parser.Failures

namespace ArgTree

open Lookahead

namespace Level

variable {l l' : Level}

-- The delimiter that a level in the convention of whitespace goes on with is whitespace.
theorem of_delimiter_whitespace (h : l.delimiter k = .ok (.proceed, l'))
    (hk : k = .whitespace ∨ k = .comma) (hc : l'.convention = .whitespace) :
    k = .whitespace ∧ (l.haveItem ∨ l.convention = .whitespace) := by
  rcases hk with rfl | rfl <;> cases hl : l.convention <;> simp only [delimiter, hl] at h <;>
    (try split at h) <;> cases h <;> simp_all [delimited]

theorem delimiter?_of_regroup (h : l.delimiter k = .ok (.regroup c, l')) :
    c.delimiter? = some k := by
  simp only [delimiter] at h
  split at h <;> (try split at h) <;> cases h <;> rfl

theorem of_whitespaceExpected (h : l.delimiter k = .error .whitespaceExpected) :
    k = .comma ∧ l.convention = .whitespace ∧ l.haveItem = false := by
  simp only [delimiter] at h
  split at h <;> (try split at h) <;> simp_all

end Level

theorem Cause.message_eq_iff {c : Cause} :
    c.message = "Invalid assignment" ↔ c = .invalidAssignment := by
  cases c <;> decide

theorem Cause.kind_eq_whitespaceExpected_iff {c : Cause} :
    c.kind = .whitespaceExpected ↔ c = .whitespaceExpected := by
  cases c <;> decide

namespace Parser

variable {inner : Inner}

-- The whitespace in front, if there is any, separates items.
def Unpadded (ts : List Lexeme) : Prop :=
  skipPadding ts = ts

theorem unpadded_of_kind (h : kind ts ≠ .whitespace) : Unpadded ts := by
  rw [Unpadded, skipPadding, skipWhitespace_of_kind h, ite_self]

theorem unpadded_skipPadding (ts : List Lexeme) : Unpadded (skipPadding ts) := by
  by_cases hk : kind (skipWhitespace ts) = .comma ∨ kind (skipWhitespace ts) = .endOfText ∨
      (kind (skipWhitespace ts)).isClosing
  case pos =>
    rw [skipPadding, if_pos hk]
    exact unpadded_of_kind (kind_skipWhitespace ts)
  case neg =>
    have hs : skipPadding ts = ts := if_neg hk
    rw [Unpadded, hs, hs]

-- So what comes behind such whitespace is no comma.
theorem Unpadded.kind_ne_comma (h : Unpadded (t :: ts)) (ht : t.kind = .whitespace) :
    kind (skipWhitespace ts) ≠ .comma := by
  intro hk
  rw [Unpadded, skipPadding, skipWhitespace_cons ht, if_pos (.inl hk)] at h
  have := length_skipWhitespace_le ts
  rw [h, List.length_cons] at this
  omega

-- What is left behind a group is not padded.
def LeavesUnpadded (inner : Inner) : Prop :=
  ∀ c first opener ts v us, (inner (.group c first) opener ts).Yields v us → Unpadded us

theorem ReadsItems.unpadded (hi : LeavesUnpadded inner) (h : ReadsItems inner l last ts vs us)
    (hc : l.close = .group c) (hl : l.haveItem ∨ l.haveDelimiter) (hu : l.haveItem → Unpadded ts) :
    Unpadded us := by
  induction h
  case ends hd         => exact hu (hl.resolve_right (by simp [hd]))
  case closes hb _     => cases hc.symm.trans hb
  case lacks ht _      => exact unpadded_of_kind (kind_ne_of_begins (ht.imp_right .inr)).left
  case delimiter hd _ _ ih =>
    have ⟨hn, hl⟩ := Level.delimited_of_delimiter hd
    exact ih ((Level.close_of_delimiter hd).trans hc) (.inr hl) (by simp [hn])
  case regroup hd _ hg _ ih =>
    exact ih ((Level.close_of_delimiter hd).trans hc) (.inl rfl) fun _ => hi _ _ _ _ _ _ hg
  case item hit _ _ ih =>
    have ⟨hit', _⟩ := Level.haveItem_of_item hit
    exact ih ((Level.close_of_item hit).trans hc) (.inl hit') fun _ => unpadded_skipPadding _

theorem nested_leavesUnpadded (depth : Nat) : LeavesUnpadded (nested depth) := by
  induction depth
  case zero => exact fun _ _ _ _ _ _ h => absurd h not_nested_zero_yields
  case succ d hi =>
    intro c first opener ts v us h
    obtain ⟨_, hd, h⟩ := nested_yields_iff.mp h
    cases hd
    cases h with
    | group h => exact h.items.unpadded (c := c) hi rfl (.inr rfl) nofun

-- Behind an item there is no padding. So in the convention of whitespace a comma is behind an item.
def Place.Spaced : Place → Prop
  | .items _ l _ ts  => (l.haveItem → Unpadded ts) ∧
      (l.convention = .whitespace → l.haveItem ∨ kind (skipWhitespace ts) ≠ .comma)
  | .entries _ _ _ _ => True

theorem Nested.spaced (h : ∀ first, what = .group .whitespace first →
    kind (skipWhitespace ts) ≠ .comma) : (Nested.place d ts what).Spaced := by
  cases what with
  | list close    => exact ⟨nofun, nofun⟩
  | hash          => trivial
  | group c first =>
    refine ⟨nofun, fun hc => .inr ?_⟩
    cases hc
    rw [skipWhitespace_idem]
    exact h first rfl

theorem Next.spaced (h : Next p q) (hp : p.Spaced) : q.Spaced := by
  cases h with
  | @delimiter d l last t ts l' he hd ht =>
    have ⟨hn, _⟩ := Level.delimited_of_delimiter hd
    refine ⟨by simp [hn], fun hc => .inr ?_⟩
    obtain ⟨hk, hl⟩ := Level.of_delimiter_whitespace hd ht hc
    by_cases hi : l.haveItem
    case pos => exact (hp.left hi).kind_ne_comma hk
    case neg => exact skipWhitespace_cons hk ts ▸ (hp.right (hl.resolve_left hi)).resolve_left hi
  | regroup _ _ _ hg => exact ⟨fun _ => nested_leavesUnpadded _ _ _ _ _ _ _ hg, fun _ => .inl rfl⟩
  | item _ hi _      =>
    exact ⟨fun _ => unpadded_skipPadding _, fun _ => .inl (Level.haveItem_of_item hi).left⟩
  | group _ hd _     =>
    refine Nested.spaced fun _ hw => ?_
    cases hw
    have hk := Option.some.inj (Level.delimiter?_of_regroup hd)
    exact (hp.left (Level.haveItem_of_regroup hd)).kind_ne_comma hk.symm
  | opening _ _ hb   => exact Nested.spaced fun _ hw => absurd hw hb.not_group
  | value _ ha       => exact Nested.spaced fun _ hw => absurd hw ha.not_group
  | comma | entry    => trivial

theorem Visits.spaced (h : Visits p q) (hp : p.Spaced) : q.Spaced := by
  induction h
  case refl       => exact hp
  case tail hn ih => exact hn.spaced ih

theorem Place.Spaced.haveItem (h : (Place.items d l last (t :: ts)).Spaced) (ht : t.kind = .comma)
    (hc : l.convention = .whitespace) : l.haveItem := by
  refine (h.right hc).resolve_right fun hn => hn ?_
  rw [skipWhitespace_of_kind (by simp [kind, ht])]
  exact ht

-- A failure never is that whitespace is missing, or that there is no assignment where one was seen.
theorem Raises.cause_ne (h : Raises p f) (hp : p.Spaced) :
    f.cause ≠ .whitespaceExpected ∧ f.cause ≠ .invalidAssignment := by
  have hc {f : Fault} (h : f.IsCutShort) :
      f.cause ≠ .whitespaceExpected ∧ f.cause ≠ .invalidAssignment := by
    constructor <;> intro he <;> cases he ▸ h.left
  cases h with
  | start            => dsimp only; split <;> decide
  | escape _ _ _ h   => exact hc (escaped_cutShort _ _ h)
  | region _ _ _ h   => exact hc (verbatim_cutShort _ _ _ _ h)
  | delimiter _ hd _ =>
    refine ⟨?_, fun he => ?_⟩
    case refine_1 =>
      rintro rfl
      obtain ⟨hk, hc, hi⟩ := Level.of_whitespaceExpected hd
      exact absurd (hp.haveItem hk hc) (by simp [hi])
    case refine_2 => rcases Level.cause_of_delimiter hd with h | h <;> cases he.symm.trans h
  | _ => exact ⟨nofun, nofun⟩

theorem role_eq_endOfText_iff : role (t :: ts) = .endOfText ↔ t.kind = .endOfText := by
  simp only [role, kind]
  split <;> simp_all
  split <;> simp_all

-- The row is left to be read as a plain element: it begins with no delimiter and no bracket, with
-- no escape and no assignment, and it was not refused.
structure IsPlain (t : Lexeme) (ts : List Lexeme) : Prop where
  plain   : role (t :: ts) ∉
    [.whitespace, .comma, .close, .escape, .paren, .hash, .array, .assignment]
  accepts : ¬(role (t :: ts) = .other ∧ !t.kind.isElement)

theorem IsPlain.reads (h : IsPlain t ts) (ht : t.kind ≠ .endOfText) :
    t.kind.isElement ∧ (item inner t ts).Yields (.ofScalar t.value) ts := by
  have hr : role (t :: ts) = .other := by
    have hp := h.plain
    have hn : role (t :: ts) ≠ .endOfText := mt role_eq_endOfText_iff.mp ht
    cases hr : role (t :: ts) <;> simp_all
  have he : t.kind.isElement := by simpa [hr] using h.accepts
  rw [item_of_isElement he]
  rw [role_of_isElement he] at hr
  split at hr <;> simp_all

end Parser

namespace TokenSequence

open ArgTree.Parser

variable {s : TokenSequence} {o : ParseOptions}

theorem ComesTo.spaced (h : s.ComesTo o p) : p.Spaced :=
  Visits.spaced h ⟨nofun, nofun⟩

-- What no parse comes to. It never fails for whitespace that is missing, or for an assignment that
-- is none after all, no delimiter completes a level, and what is left to be read as a plain element
-- is one. In the convention of whitespace, a comma is right behind an item.
theorem unreached_of_parse {g : Grammar} {source : String} (hs : ofGrammar g source = .ok s)
    (o : ParseOptions) :
    (∀ e, s.parse o = .error e → e.kind ≠ .whitespaceExpected ∧ e.message ≠ "Invalid assignment") ∧
    ∀ d l last t ts, s.ComesTo o (.items d l last (t :: ts)) →
      (∀ l', l.delimiter t.kind ≠ .ok (.complete, l')) ∧
      (IsPlain t ts → t.kind.isElement ∧ (item (nested d) t ts).Yields (.ofScalar t.value) ts) ∧
      (t.kind = .comma → l.convention = .whitespace → l.haveItem) := by
  have hp := proper_of_ofGrammar hs
  constructor
  case left =>
    intro e he
    obtain ⟨f, hf, rfl⟩ := parse_eq_error_iff.mp he
    obtain ⟨p, hv, hr⟩ := exists_raises hp hf
    have ⟨hw, ha⟩ := hr.cause_ne hv.spaced
    exact ⟨mt Cause.kind_eq_whitespaceExpected_iff.mp hw, mt Cause.message_eq_iff.mp ha⟩
  case right =>
    intro d l last t ts hv
    refine ⟨fun _ => Level.delimiter_ne_complete, fun ht => ht.reads ?_, hv.spaced.haveItem⟩
    have hv := (Visits.suffix hv).trans (skipWhitespace_suffix _)
    exact hp t ((hv.trans (List.drop_suffix ..)).subset List.mem_cons_self)

-- Every blank is a token of its own. Two of them pad the comma behind `b`, and do not stand between
-- the item and the comma.
theorem unreached_of_parse_blanks :
    let rules : List Rule :=
      [{ pattern := .literal " ", kind := .whitespace },
       { pattern := .literal ",", kind := .comma }]
    let letter : Rule := { pattern := .literal "b", kind := .word }
    ∃ g s, Grammar.ofRules rules (some letter) = .ok g ∧ ofGrammar g "b b  ,," = .ok s ∧
      (∃ e, s.parse = .error e ∧ e.kind = .itemExpected ∧ e.offset = 6 ∧
        e.kind ≠ .whitespaceExpected ∧ e.message ≠ "Invalid assignment") ∧
      ∃ l last t ts, s.ComesTo {} (.items 100 l last (t :: ts)) ∧
        t.kind = .comma ∧ l.convention = .whitespace ∧ l.haveItem := by
  intro rules letter
  have hg : ∀ r ∈ rules ++ (some letter).toList, r.kind ≠ .endOfText := by decide
  have hl : (ofGrammar ⟨rules, some letter, hg⟩ "b b  ,,").map (·.lexemes) = .ok
      [⟨.word, .str "b", "b"⟩, ⟨.whitespace, .str " ", " "⟩, ⟨.word, .str "b", "b"⟩,
        ⟨.whitespace, .str " ", " "⟩, ⟨.whitespace, .str " ", " "⟩, ⟨.comma, .str ",", ","⟩,
        ⟨.comma, .str ",", ","⟩] := by cbv
  have he : (ofGrammar ⟨rules, some letter, hg⟩ "b b  ,,").bind (·.parse) = .error
      { kind := .itemExpected, character := some ",", source := "b b  ,,", offset := 6,
        retry := some true } := by cbv
  cases hs : ofGrammar ⟨rules, some letter, hg⟩ "b b  ,," <;>
    simp only [hs, Except.map, Except.bind] at hl he
  case error => contradiction
  case ok s  =>
    obtain ⟨hp, hv⟩ := unreached_of_parse hs {}
    have hc : s.ComesTo {} (.items 100 (.begun .endOfText .whitespace) [.str "b", .str "b"]
        [⟨.comma, .str ",", ","⟩, ⟨.comma, .str ",", ","⟩]) := by
      rw [ComesTo, lexemesFrom, Except.ok.inj hl]
      refine .head (.item rfl rfl (.element rfl rfl)) ?_
      refine .head (.delimiter rfl rfl (.inl rfl)) ?_
      exact .head (.item rfl rfl (.element rfl rfl)) .refl
    refine ⟨_, s, dif_pos hg, hs, ⟨_, he, rfl, rfl, hp _ he⟩, _, _, _, _, hc, rfl, rfl, ?_⟩
    exact (hv _ _ _ _ _ hc).right.right rfl rfl

end TokenSequence

end ArgTree
