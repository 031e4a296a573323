import ArgTree.Proofs.Parser.Marks
import ArgTree.Proofs.Parser.Parse

namespace ArgTree

open Lookahead Mark Value

namespace Mark

-- The step from some marks to a rest of them turns the leaves `as` into `bs`: none is lost or
-- moved, provided that no hash repeats a key.
def Keeps (frames : List (Option (List String))) (ms : List Mark) (as bs : List Leaf)
    (frames' : List (Option (List String))) (ms' : List Mark) : Prop :=
  Distinct frames ms → as ++ ms.filterMap leaf? = bs ++ ms'.filterMap leaf? ∧ Distinct frames' ms'

namespace Keeps

theorem refl : Keeps frames ms as as frames ms :=
  fun hd => ⟨rfl, hd⟩

theorem trans (h : Keeps frames ms as bs frames' ms') (h' : Keeps frames' ms' bs cs frames'' ms'') :
    Keeps frames ms as cs frames'' ms'' := by
  intro hd
  have ⟨he, hd⟩ := h hd
  have ⟨he', hd⟩ := h' hd
  exact ⟨he.trans he', hd⟩

theorem prepend (h : Keeps frames ms as bs frames' ms') (ls : List Leaf) :
    Keeps frames ms (ls ++ as) (ls ++ bs) frames' ms' := by
  intro hd
  have ⟨he, hd⟩ := h hd
  exact ⟨by rw [List.append_assoc, he, List.append_assoc], hd⟩

theorem scalar : Keeps frames (leaf (.scalar s) :: ms) as (as ++ [.scalar s]) frames ms := by
  intro hd
  exact ⟨by simp [leaf?], by simpa [Distinct] using hd⟩

theorem key :
    Keeps (none :: frames) (leaf (.key k) :: ms) as (as ++ [.key k]) (none :: frames) ms := by
  intro hd
  exact ⟨by simp [leaf?], by simpa [Distinct] using hd⟩

theorem opening {h : Bool} :
    Keeps frames (opening h :: ms) as as ((if h then some [] else none) :: frames) ms := by
  intro hd
  exact ⟨rfl, by simpa [Distinct] using hd⟩

theorem closing : Keeps (frame :: frames) (closing :: ms) as as frames ms := by
  intro hd
  exact ⟨rfl, by simpa [Distinct] using hd⟩

end Keeps

end Mark

namespace Parser

-- Reading what is nested keeps the leaves.
def KeepsLeaves (inner : Inner) : Prop :=
  ∀ what opener ts v us, (inner what opener ts).Yields v us → ∀ frames,
    match what with
    | .list _        => Keeps (none :: frames) (scan false ts) [] v.leaves frames (scan false us)
    | .group _ first =>
      Keeps (none :: frames) (scan false ts) (leaves.items first.toList) v.leaves
        (none :: frames) (scan false us)
    | .hash          => Keeps (some [] :: frames) (scan false ts) [] v.leaves frames (scan false us)

variable {inner : Inner}

theorem ReadsAssigned.keeps (hk : KeepsLeaves inner) (h : ReadsAssigned inner ts v us)
    (frame) (frames) :
    Keeps (frame :: frames) (scan true ts) [] v.leaves (frame :: frames) (scan false us) := by
  cases h
  case hash ts t ht h =>
    rw [scan_lCurly ht]
    exact .trans .opening (hk _ _ _ _ _ h _)
  case list ts close t hn ht h =>
    rw [scan_opening hn ht]
    exact .trans .opening (hk _ _ _ _ _ h _)
  case element t ht =>
    rw [scan_element ht (.inl rfl), leaves_ofScalar]
    exact .scalar

theorem ReadsAssignment.scan_eq (hk : KeepsLeaves inner)
    (h : ReadsAssignment inner ts (key, v) us) :
    ∃ ms, scan false ts = leaf (.key key) :: ms ∧
      ∀ frame frames, Keeps (frame :: frames) ms [] v.leaves (frame :: frames) (scan false us) := by
  cases h
  case intro ha hv => exact ⟨_, scan_assignment ha, hv.keeps hk⟩

theorem ReadsItem.keeps (hk : KeepsLeaves inner) (h : ReadsItem inner ts v us) (frames) :
    Keeps (none :: frames) (scan false ts) [] v.leaves (none :: frames) (scan false us) := by
  cases h
  case escape ht hr =>
    rw [scan_escape ht hr]
    exact .scalar
  case verbatim ht hb hu =>
    rw [scan_region ht hb hu]
    exact .scalar
  case hash ts t ht h =>
    rw [scan_lCurly ht]
    exact .trans .opening (hk _ _ _ _ _ h _)
  case array ts t ht h =>
    rw [scan_lSquare ht]
    exact .trans .opening (hk _ _ _ _ _ h _)
  case assignment ha =>
    have ⟨_, hs, hv⟩ := ha.scan_eq hk
    rw [hs]
    refine .trans .key ?_
    simpa [leaves] using (hv none frames).prepend [.key _]
  case element t ht ha =>
    rw [scan_element ht (.inr ha), leaves_ofScalar]
    exact .scalar

theorem ReadsEntries.keeps (hk : KeepsLeaves inner) (h : ReadsEntries inner ready es ts fs us)
    (hks : ∀ k, k ∈ keys ↔ k ∈ es.keys) (frames) :
    Keeps (some keys :: frames) (scan false ts) (leaves.entries es) (leaves.entries fs) frames
      (scan false us) := by
  induction h generalizing keys
  case close hs ht =>
    rw [← scan_skipWhitespace, hs, scan_closing (by rw [ht]; rfl)]
    exact .closing
  case comma hs ht _ hi =>
    rw [← scan_skipWhitespace, hs, scan_of_passed (.inr ht)]
    exact hi hks
  case entry ts key v us fs vs es ha _ hi =>
    have ⟨ms, hs, hv⟩ := ha.scan_eq hk
    rw [← scan_skipWhitespace, hs]
    intro hd
    have ⟨hn, hd⟩ : key ∉ keys ∧ Distinct (some (key :: keys) :: frames) ms := hd
    have hn : key ∉ es.keys := fun h => hn ((hks key).mpr h)
    have hks : ∀ k, k ∈ key :: keys ↔ k ∈ Entries.keys (es.insert key v) := fun k => by
      rw [Entries.keys_insert, if_neg hn, List.mem_cons, List.mem_append, hks k]
      simp [or_comm]
    have hi := hi hks
    rw [Entries.insert_of_not_mem hn, leaves_entries_append, leaves_entries_singleton] at hi
    have hv := (hv (some (key :: keys)) frames).prepend (leaves.entries es ++ [.key key])
    simp only [List.append_assoc, List.singleton_append] at hv
    have ⟨he, hd⟩ := hv.trans hi hd
    exact ⟨by simpa [leaf?] using he, hd⟩

-- The frames that are left when a level has been read.
def framesBehind (frames : List (Option (List String))) : Close → List (Option (List String))
  | .bracket _ => frames
  | _          => none :: frames

theorem framesBehind_of_not_bracket (h : ∀ k, close ≠ .bracket k) :
    framesBehind frames close = none :: frames := by
  cases close
  case bracket k => exact absurd rfl (h k)
  all_goals rfl

theorem ReadsItems.keeps (hk : KeepsLeaves inner) (h : ReadsItems inner l last ts vs us) (frames) :
    Keeps (none :: frames) (scan false ts) (leaves.items last.reverse) (leaves.items vs)
      (framesBehind frames l.close) (scan false us) := by
  induction h
  case ends he _ =>
    rw [framesBehind_of_not_bracket fun _ => Level.not_bracket_of_endsAt he]
    exact .refl
  case closes ht hc _ =>
    rw [scan_closing ht, hc]
    exact .closing
  case delimiter hd ht _ hi =>
    rw [scan_of_passed ht, ← Level.close_of_delimiter hd]
    exact hi
  case regroup last _ _ hd ht hg _ hi =>
    rw [scan_of_passed ht, ← Level.close_of_delimiter hd]
    refine .trans ?_ hi
    have hg := (hk _ _ _ _ _ hg frames).prepend (leaves.items last.tail.reverse)
    cases last <;> simpa using hg
  case lacks hb =>
    rw [framesBehind_of_not_bracket hb]
    exact .refl
  case item hi hr _ ih =>
    rw [scan_skipPadding, Level.close_of_item hi] at ih
    refine .trans ?_ ih
    simpa using (hr.keeps hk frames).prepend _

theorem nested_keepsLeaves (depth : Nat) : KeepsLeaves (nested depth) := by
  intro what opener ts v us h
  refine nested_induction (fun d hi what ts v us h frames => ?_) h
  cases h
  case list h =>
    have hk := h.items.keeps hi frames
    rw [scan_skipWhitespace] at hk
    exact hk
  case group first _ h =>
    have hk := h.items.keeps hi frames
    rw [scan_skipWhitespace] at hk
    cases first <;> exact hk
  case hash h => exact h.keeps hi (by simp [Entries.keys]) frames

end Parser

namespace TokenSequence

open ArgTree.Parser

theorem leaves_ofTopLevel (unwrap : Bool) (vs : List Value) :
    (ofTopLevel unwrap vs).leaves = leaves.items vs := by
  simp only [ofTopLevel]
  split <;> simp [leaves]

-- Nothing that the tokens say is lost, doubled or moved: the leaves of the value are those that a
-- scan of the tokens finds, if no hash repeats a key.
theorem leaves_of_parse {s : TokenSequence} (h : s.parse o = .ok v)
    (hd : Distinct [none] (scan false (s.lexemesFrom o.start))) :
    v.leaves = (scan false (s.lexemesFrom o.start)).filterMap leaf? := by
  have ⟨vs, hl, hv⟩ := parse_eq_ok_iff.mp h
  have hk := hl.items.keeps (nested_keepsLeaves o.maxDepth) []
  rw [scan_skipWhitespace] at hk
  have ⟨he, _⟩ := hk hd
  rw [hv, leaves_ofTopLevel]
  simpa [scan] using he.symm

-- Text in parentheses is a leaf, and a key is one in front of its value.
theorem leaves_of_parse_assignment :
    let lexemes : List (Kind × String) :=
      [(.lParen, "("), (.word, "a"), (.rParen, ")"), (.comma, ","), (.word, "k"), (.equals, "="),
       (.lSquare, "["), (.word, "b"), (.rSquare, "]")]
    let tokens := lexemes.map fun (kind, text) =>
      { kind, value := .str text, text, span := .empty 0 : Token }
    let s : TokenSequence := { source := "(a),k=[b]", tokens, counters := {} }
    ∃ v, s.parse = .ok v ∧ Distinct [none] (scan false s.lexemes) ∧
      v.leaves = [.scalar (.str "(a)"), .key "k", .scalar (.str "b")] := by
  intro lexemes tokens s
  have hp : s.parse = .ok (.list [.str "(a)", .map [("k", .list [.str "b"])]]) := by cbv
  have hd : Distinct [none] (scan false s.lexemes) := by cbv
  have hl := leaves_of_parse (o := {}) hp hd
  exact ⟨_, hp, hd, hl.trans (by cbv)⟩

end TokenSequence

end ArgTree
