import ArgTree.Proofs.Parser.Depth
import ArgTree.Proofs.Parser.WellFormed
import ArgTree.Proofs.Written.Equality
import ArgTree.Proofs.Written.Items

namespace ArgTree

open Expression ArgTree.Parser Lookahead

-- A list or a map is read as the only item of the top level, if the limit is not below what it
-- opens.
theorem Written.AsItem.parse {text : String} (h : AsItem text height v)
    (hv : v = .ofTopLevel true [v]) (m : Nat) :
    let result := ArgTree.parse text { maxDepth := m }
    height ≤ m ∧ result = .ok v ∨ m < height ∧ IsCutOff result := by
  intro result
  have ⟨t, ts, hl, hb, hg⟩ := h
  have ⟨s, hs, he⟩ := TokenSequence.exists_ofSource hl
  have hp : result = s.parse { maxDepth := m } := by
    simp only [result, ArgTree.parse, hs, bind, Except.bind]
  have hg := hg m [] (.inr (.inl rfl))
  rw [List.append_nil] at hg
  have hr : (items (Parser.nested m) (.begun .endOfText .undetermined) [v] []).Yields [v] [] :=
    items_yields_iff.mpr (.ends rfl rfl)
  have hw : skipWhitespace (t :: ts) = t :: ts :=
    skipWhitespace_of_kind (kind_ne_of_begins hb).left
  have hi :=
    gives_item (c := .undetermined) (l := .start .endOfText) ⟨hb, rfl⟩ hg (hr.gives trivial)
  have ht : s.lexemesFrom 0 = t :: ts := by rw [TokenSequence.lexemesFrom, List.drop_zero, he]
  have hl : (level (Parser.nested m) .endOfText none (s.lexemesFrom 0)).Gives _ [v] [] :=
    ht ▸ gives_level hw hb hi
  rw [hp]
  rcases hl with ⟨hm, hy⟩ | ⟨hm, ts, hf⟩
  case inl =>
    exact .inl ⟨hm.left, TokenSequence.parse_eq_ok_iff.mpr ⟨_, level_yields_iff.mp hy, hv⟩⟩
  case inr =>
    have hd := Nat.lt_of_not_le fun h => hm ⟨h, trivial⟩
    refine .inr ⟨hd, TokenSequence.isCutOff_parse_iff.mpr ⟨ts, ?_⟩⟩
    exact TokenSequence.parseOutcome_eq_error_iff.mpr (.inl hf)

namespace Value

variable {v : Value}

theorem WellFormed.ne_nil (h : v.WellFormed floats strings) : v ≠ .list [] := by
  rintro rfl
  cases h
  contradiction

theorem height_eq_depth (h : v ≠ .list []) : v.height = v.depth := by
  rw [depth]
  exact h

theorem ofTopLevel_spelled (h : v.isScalar = false) : v.spelled = ofTopLevel true [v.spelled] := by
  cases v <;> first | rfl | contradiction

end Value

theorem Written.nested_eq_value (spacing : Spacing) (h : v ≠ .list []) :
    nested spacing v = value spacing v := by
  rw [value]
  exact h

-- The text of what an expression can denote is read as the same value, apart from floats that are
-- no numbers. It opens as many levels as the value has.
theorem parse_value {v : Value} (h : v.IsRoot fun _ => True) (spacing : Spacing) (m : Nat) :
    let result := parse (Written.value spacing v) { maxDepth := m }
    v.depth ≤ m ∧ result = .ok v.spelled ∨ m < v.depth ∧ IsCutOff result := by
  intro result
  rcases h with rfl | ⟨hv, h⟩
  case inl =>
    have hl : Lexes (Written.value spacing (.list [])).toList [] := .nil
    refine .inl ⟨Nat.zero_le m, (parse_eq_ok_iff_of_lexes hl).mpr ⟨[], ?_, rfl⟩⟩
    exact ⟨nofun, rfl, .ends rfl rfl⟩
  case inr =>
    have hi := (Written.asItem_and_asAssigned h spacing).left nofun
    rw [Value.height_eq_depth h.ne_nil, Written.nested_eq_value spacing h.ne_nil] at hi
    exact hi.parse (Value.ofTopLevel_spelled hv) m

theorem isRoot_of_parse_eq_ok {text : String} (h : parse text o = .ok v) : v.IsRoot (· ≠ .nan) := by
  obtain ⟨s, hs, hp⟩ := parse_eq_ok_iff_exists_ofSource.mp h
  obtain ⟨vs, hl, rfl⟩ := TokenSequence.parse_eq_ok_iff.mp hp
  have hc := TokenSequence.cut_lexemesFrom hs o.start
  have hv := hl.items.sound (nested_sound o.maxDepth)
    (hc.of_isInfix (skipWhitespace_suffix _).isInfix) (by simp)
  exact TokenSequence.isRoot_ofTopLevel hv.left o.unwrapSingleton

-- A value is read back from its text if and only if it is one that an expression can denote, all of
-- its floats are numbers, and the limit is not below its depth. That the zeros of both signs are
-- equal makes no difference.
theorem parse_value_eq_ok_iff (v : Value) (spacing : Spacing) (m : Nat) :
    let result := parse (Written.value spacing v) { maxDepth := m }
    (result = .ok v ↔ v.IsRoot (·.isFinite) ∧ v.depth ≤ m) ∧
      ((∃ w, result = .ok w ∧ w.equals v) ↔ v.IsRoot (·.isFinite) ∧ v.depth ≤ m) := by
  intro result
  have hw {w} (h : result = .ok w) (hr : v.IsRoot fun _ => True) : w = v.spelled ∧ v.depth ≤ m := by
    rcases parse_value hr spacing m with ⟨hm, hs⟩ | ⟨_, _, he, _⟩
    case inl => exact ⟨Except.ok.inj (h.symm.trans hs), hm⟩
    case inr => cases h.symm.trans he
  have hs (h : v.IsRoot (·.isFinite) ∧ v.depth ≤ m) : result = .ok v := by
    have ⟨hr, hf⟩ := Value.isRoot_iff_allFloats.mp h.left
    rcases parse_value hr spacing m with ⟨_, hp⟩ | ⟨hlt, _⟩
    case inl => exact hp.trans (congrArg _ ((Value.spelled_eq_self_iff v).mpr hf))
    case inr => omega
  refine ⟨⟨fun h => ?_, hs⟩, fun ⟨w, h, he⟩ => ?_, fun h => ⟨v, hs h, ?_⟩⟩
  case refine_1 =>
    have ⟨hr, _⟩ := Value.isRoot_iff_allFloats.mp (isRoot_of_parse_eq_ok h)
    have ⟨hv, hm⟩ := hw h hr
    exact ⟨Value.isRoot_iff_allFloats.mpr ⟨hr, (Value.spelled_eq_self_iff v).mp hv.symm⟩, hm⟩
  case refine_2 =>
    have hr := Value.isRoot_of_equals (isRoot_of_parse_eq_ok h) he
    obtain ⟨rfl, hm⟩ := hw h hr
    exact ⟨Value.isRoot_iff_allFloats.mpr ⟨hr, (Value.spelled_equals_iff v).mp he⟩, hm⟩
  case refine_3 =>
    have ⟨_, hf⟩ := Value.isRoot_iff_allFloats.mp h.left
    have hv := (Value.spelled_equals_iff v).mpr hf
    rwa [(Value.spelled_eq_self_iff v).mpr hf] at hv

end ArgTree
