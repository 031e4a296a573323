import ArgTree.Proofs.Written.ReadBack

namespace ArgTree

open Expression ArgTree.Parser Lookahead

theorem Binary64.ofRank_infinityRank (sign : Bool) : ofRank sign infinityRank = infinite sign :=
  dif_neg (Nat.lt_irrefl _)

theorem Binary64.ofDecimal_of_lt {e : Int} (sign : Bool) (hm : m ≠ 0)
    (h : 400 < Digits.count m + e) : ofDecimal sign m e = .ofRank sign infinityRank := by
  rw [ofDecimal, if_neg (by omega), if_pos h]

namespace Written

theorem asItem_assignment (spacing : Spacing) (hk : isKey k) (hv : AsAssigned text height v) :
    AsItem (key k ++ spacing.equals ++ text) height (.map [(k, v)]) := by
  have ⟨t, ts, hl, he, ha⟩ := gives_entry_text spacing hk hv
  refine ⟨t, ts, hl, .inr (.inr he), fun d us _ => ?_⟩
  have ⟨a, ha, hak, hg⟩ := ha us
  rw [item_of_isElement he, if_pos (by rw [ha]; rfl)]
  exact hak ▸ (gives_assignment ha (hg d)).mapValue

theorem AsItem.asNested (h : AsItem text height v) :
    AsNested ("[" ++ text ++ "]") (height + 1) (.list [v]) := by
  have ⟨t, ts, hl, hb, hg⟩ := h
  refine asNested_of_items hl hb fun d u us hu => ?_
  exact gives_last (c := .undetermined) [] ⟨hb, rfl⟩ hu (hg d _)

-- Lists inside one another, each the value of an assignment in the next one.
def chain : Nat → String
  | 0     => "x"
  | n + 1 => "[a=" ++ chain n ++ "]"

def chainValue : Nat → Value
  | 0     => .str "x"
  | n + 1 => .list [.map [("a", chainValue n)]]

theorem asNested_chain (h : AsAssigned (chain n) n (chainValue n)) :
    AsNested (chain (n + 1)) (n + 1) (chainValue (n + 1)) := by
  have hk : isKey "a" := by decide +kernel
  have ht : chain (n + 1) = "[" ++ (key "a" ++ Spacing.equals {} ++ chain n) ++ "]" := by
    rw [key_of_isKey hk, chain, ← String.append_assoc, ← String.append_assoc]
    rfl
  exact ht ▸ (asItem_assignment {} hk h).asNested

theorem asAssigned_chain (n : Nat) : AsAssigned (chain n) n (chainValue n) := by
  induction n
  case zero      => exact (asElement_of_isBare (by decide +kernel)).asAssigned
  case succ n hi => exact (asNested_chain hi).asAssigned

theorem height_chainValue (n : Nat) : (chainValue n).height = 2 * n := by
  induction n
  case zero      => rfl
  case succ n hi =>
    simp [chainValue, Value.height, Value.height.items, Value.height.entries, hi]
    omega

theorem depth_chainValue (n : Nat) : (chainValue n).depth = 2 * n := by
  have hn : chainValue n ≠ .list [] := by cases n <;> simp [chainValue]
  rw [← Value.height_eq_depth hn, height_chainValue]

-- The limit counts the lists, and neither the assignments nor the maps that they are.
theorem parse_chain (n : Nat) (h : n < m) :
    parse (chain (n + 1)) { maxDepth := m } = .ok (chainValue (n + 1)) := by
  rcases (asNested_chain (asAssigned_chain n)).asItem.parse rfl m with ⟨_, hp⟩ | ⟨hm, _⟩
  case inl => exact hp
  case inr => omega

-- A decimal number with more digits than the greatest float has.
def excess (zeros : Nat) : String :=
  String.ofList ('1' :: List.replicate zeros '0' ++ ['.', '0'])

theorem isPositional_excess (h : 400 ≤ zeros) :
    IsPositional (excess zeros).toList Binary64.infinityRank := by
  have hz : ∀ c ∈ List.replicate zeros '0', c.isDigit := fun _ => Digits.isDigit_of_mem_replicate
  refine ⟨'1' :: List.replicate zeros '0', ['0'], String.toList_ofList, nofun,
    List.forall_mem_cons.mpr ⟨rfl, hz⟩, nofun, List.forall_mem_singleton.mpr rfl,
    fun negative => ?_⟩
  have hv : Digits.toNat ('1' :: List.replicate zeros '0' ++ ['0']) = 1 * 10 ^ (zeros + 1) := by
    rw [List.cons_append, ← List.replicate_succ', ← List.singleton_append, Digits.toNat_append,
      Digits.toNat_replicate_zero, List.length_replicate]
    rfl
  have hc : Digits.count (1 * 10 ^ (zeros + 1)) = 1 + (zeros + 1) := by
    rw [Digits.count_mul_pow (by decide), Digits.count_eq_log, Nat.log_one_right]
  rw [hv]
  refine Binary64.ofDecimal_of_lt negative (by positivity) ?_
  rw [hc, List.length_singleton]
  omega

theorem asElement_excess (h : 400 ≤ zeros) :
    AsElement (excess zeros) (.float (.infinite false)) := by
  have hp := isPositional_excess h
  have hf := FloatNumeral.float?_of_isPositional hp false
  rw [Binary64.ofRank_infinityRank] at hf
  obtain ⟨whole, fraction, he, _, hw, hn, hd, _⟩ := hp
  have hl := lexes_of_isFloat ⟨[], whole, fraction, he, .inl rfl, hw, hn, hd⟩ hf
  exact ⟨_, hl, rfl, rfl⟩

end Written

-- What is read from some text is read again from the text that is written for it, as the same
-- value, if all of its floats are numbers and it is not deeper than the limit. What is deeper is
-- cut off, although it was read within the limit from another text.
theorem parse_value_of_parse {text : String} {v : Value} (h : parse text = .ok v)
    (hf : ∀ f, .scalar (.float f) ∈ v.leaves → f.isFinite) (spacing : Spacing) :
    (v.depth ≤ 100 → parse (Written.value spacing v) = .ok v) ∧
      (100 < v.depth → IsCutOff (parse (Written.value spacing v))) := by
  have ⟨hr, _⟩ := Value.isRoot_iff_allFloats.mp (isRoot_of_parse_eq_ok h)
  have hs := (Value.spelled_eq_self_iff v).mpr hf
  rcases parse_value hr spacing 100 with ⟨hm, hp⟩ | ⟨hm, hc⟩
  case inl => exact ⟨fun _ => hp.trans (congrArg _ hs), fun _ => by omega⟩
  case inr => exact ⟨fun _ => by omega, fun _ => hc⟩

theorem parse_value_of_parse_region : ∃ v, parse "x=1 (b c)" = .ok v ∧
    (∀ f, .scalar (.float f) ∈ v.leaves → f.isFinite) ∧ v.depth ≤ 100 ∧
      parse (Written.value .relaxed v) = .ok v := by
  have hp : parse "x=1 (b c)" = .ok (.list [.map [("x", .int 1)], .str "(b c)"]) := by cbv
  have hf : ∀ f, .scalar (.float f) ∈
      (Value.list [.map [("x", .int 1)], .str "(b c)"]).leaves → f.isFinite := by
    simp [Value.leaves, Value.leaves.items, Value.leaves.entries]
  have hd : (Value.list [.map [("x", .int 1)], .str "(b c)"]).depth ≤ 100 := by decide
  exact ⟨_, hp, hf, hd, (parse_value_of_parse hp hf .relaxed).left hd⟩

-- 51 lists and the maps in them are 102 levels deep. An infinite float is read as a word.
theorem parse_value_of_chain_of_excess :
    (parse (Written.chain 51) = .ok (Written.chainValue 51) ∧
      ∀ spacing, IsCutOff (parse (Written.value spacing (Written.chainValue 51)))) ∧
    (parse ("[" ++ Written.excess 400 ++ "]") = .ok (.list [.float (.infinite false)]) ∧
      ∀ spacing, parse (Written.value spacing (.list [.float (.infinite false)])) =
        .ok (.list [.str "inf"])) := by
  have hc : parse (Written.chain 51) = .ok (Written.chainValue 51) :=
    Written.parse_chain 50 (by decide)
  have hd : (Written.chainValue 51).depth = 102 := Written.depth_chainValue 51
  have he : parse ("[" ++ Written.excess 400 ++ "]") = .ok (.list [.float (.infinite false)]) := by
    have hi := (Written.asElement_excess (Nat.le_refl 400)).asItem.asNested.asItem
    rcases hi.parse rfl 100 with ⟨_, hp⟩ | ⟨hm, _⟩
    case inl => exact hp
    case inr => exact absurd hm (by decide)
  have ⟨hr, _⟩ := Value.isRoot_iff_allFloats.mp (isRoot_of_parse_eq_ok hc)
  have ⟨hr', _⟩ := Value.isRoot_iff_allFloats.mp (isRoot_of_parse_eq_ok he)
  refine ⟨⟨hc, fun spacing => ?_⟩, he, fun spacing => ?_⟩
  case refine_1 =>
    rcases parse_value hr spacing 100 with ⟨hm, _⟩ | ⟨_, hc⟩
    case inl => omega
    case inr => exact hc
  case refine_2 =>
    rcases parse_value hr' spacing 100 with ⟨_, hp⟩ | ⟨hm, _⟩
    case inl => exact hp
    case inr => exact absurd hm (by decide)

end ArgTree
