import ArgTree.Proofs.Json.Grammar

namespace ArgTree.Json

theorem CodeUnit.unique (h : CodeUnit cs m ds) (h' : CodeUnit cs n es) : m = n ∧ ds = es := by
  cases h with
  | intro hi hj hk hl =>
    cases h' with
    | intro hi' hj' hk' hl' =>
      cases hi.symm.trans hi'
      cases hj.symm.trans hj'
      cases hk.symm.trans hk'
      cases hl.symm.trans hl'
      exact ⟨rfl, rfl⟩

-- No character is half of a pair of units.
theorem not_surrogate (c : Char) : ¬(0xD800 ≤ c.toNat ∧ c.toNat < 0xDC00) := by
  have hv : c.toNat < 0xD800 ∨ 0xDFFF < c.toNat ∧ c.toNat < 0x110000 := c.valid
  omega

theorem Character.unique (h : Character cs c ds) (h' : Character cs c' es) : c = c' ∧ ds = es := by
  cases h with
  | plain hq hb =>
    cases h' with
    | plain   => exact ⟨rfl, rfl⟩
    | escaped => contradiction
    | unit    => contradiction
    | pair    => contradiction
  | escaped he =>
    cases h' with
    | plain _ hb  => contradiction
    | escaped he' => exact ⟨Option.some.inj (he.symm.trans he'), rfl⟩
    | unit        => cases he
    | pair        => cases he
  | unit hu =>
    cases h' with
    | plain _ hb        => contradiction
    | escaped he'       => cases he'
    | unit hu'          =>
      obtain ⟨hc, hd⟩ := hu.unique hu'
      exact ⟨Char.toNat_inj.mp hc, hd⟩
    | pair hu' _ hh _ _ => exact absurd ((hu.unique hu').left ▸ hh) (not_surrogate c)
  | pair hh hl hhr hlr hc =>
    cases h' with
    | plain _ hb             => contradiction
    | escaped he'            => cases he'
    | unit hu'               => exact absurd ((hh.unique hu').left ▸ hhr) (not_surrogate c')
    | pair hh' hl' _ _ hc'   =>
      obtain ⟨rfl, he⟩ := hh.unique hh'
      cases he
      obtain ⟨rfl, rfl⟩ := hl.unique hl'
      exact ⟨Char.toNat_inj.mp (hc.trans hc'.symm), rfl⟩

theorem not_character_quote : ¬Character ('"' :: cs) c ds := by
  intro h
  cases h
  contradiction

theorem Characters.unique (h : Characters cs s ds) (h' : Characters cs s' es) :
    s = s' ∧ ds = es := by
  induction h generalizing s'
  case quote =>
    cases h' with
    | quote     => exact ⟨rfl, rfl⟩
    | cons hc _ => exact absurd hc not_character_quote
  case cons hc _ ih =>
    cases h' with
    | quote        => exact absurd hc not_character_quote
    | cons hc' hs' =>
      obtain ⟨rfl, rfl⟩ := hc.unique hc'
      obtain ⟨rfl, rfl⟩ := ih hs'
      exact ⟨rfl, rfl⟩

theorem IsInteger.isDigit_or_eq (h : IsInteger cs) (hc : c ∈ cs) : c.isDigit ∨ c = '-' := by
  obtain ⟨sign, whole, rfl, hs, hw⟩ := h
  rcases List.mem_append.mp hc with hc | hc
  case inr => exact .inl (hw.digits c hc)
  case inl => rcases hs with rfl | rfl <;> simp_all

-- A point or the letter of an exponent tells numbers apart.
theorem IsReal.exists_mem (h : IsReal cs) : ∃ c ∈ cs, ¬c.isDigit ∧ c ≠ '-' := by
  obtain ⟨sign, whole, fraction, exponent, rfl, _, _, hf, he, hn⟩ := h
  rcases hf with rfl | ⟨ds, rfl, _⟩
  case inr => exact ⟨'.', by simp, by decide, by decide⟩
  case inl =>
    obtain ⟨e, _, _, rfl, hc, _⟩ := he.resolve_left (hn.resolve_left (fun h => h rfl))
    have he : ¬e.isDigit ∧ e ≠ '-' := by rcases hc with rfl | rfl <;> decide
    exact ⟨e, by simp, he⟩

theorem IsInteger.not_isReal (h : IsInteger cs) : ¬IsReal cs := by
  intro hr
  obtain ⟨c, hm, hd, hs⟩ := hr.exists_mem
  rcases h.isDigit_or_eq hm with hc | hc
  · exact hd hc
  · exact hs hc

theorem Number.unique (h : Number cs v) (h' : Number cs w) : v = w := by
  cases h with
  | integer hi hn =>
    cases h' with
    | integer _ hn' => cases hn.symm.trans hn'; rfl
    | real hr _     => exact absurd hr hi.not_isReal
  | real hr hf =>
    cases h' with
    | integer hi _ => exact absurd hr hi.not_isReal
    | real _ hf'   => cases hf.symm.trans hf'; rfl

theorem Number.ne_nil (h : Number cs v) : cs ≠ [] := by
  rintro rfl
  cases h with
  | integer hi _ =>
    obtain ⟨sign, whole, he, _, hw⟩ := hi
    exact hw.ne_nil (List.append_eq_nil_iff.mp he.symm).right
  | real hr _    =>
    obtain ⟨c, hm, _⟩ := hr.exists_mem
    exact List.not_mem_nil hm

theorem Number.isNumeric_head (h : Number ((c :: cs).takeWhile isNumeric) v) : isNumeric c := by
  refine Decidable.byContradiction fun hc => h.ne_nil ?_
  rw [List.takeWhile_cons_of_neg hc]

-- A value begins with a mark of its own, or like a number.
theorem Phrase.begins (h : Phrase (c :: cs) v ds) : c = '"' ∨ c = '[' ∨ c = '{' ∨ isNumeric c := by
  cases h with
  | string              => simp
  | noItems | items     => simp
  | noMembers | members => simp
  | number hn           => exact .inr <| .inr <| .inr hn.isNumeric_head

theorem Items.not_closed (h : Items cs vs ds) : skipBlanks cs ≠ ']' :: es := by
  intro he
  have hb (v ds) : ¬Phrase (']' :: es) v ds := fun hp => by simpa [isNumeric] using hp.begins
  cases h with
  | last hp _   => exact hb _ _ (he ▸ hp)
  | more hp _ _ => exact hb _ _ (he ▸ hp)

theorem Members.not_closed (h : Members cs es ds) : skipBlanks cs ≠ '}' :: fs := by
  intro he
  have hb (e ds) (hm : Member cs e ds) : False := by
    cases hm with
    | intro hq => cases he.symm.trans hq
  cases h with
  | last hm _   => exact hb _ _ hm
  | more hm _ _ => exact hb _ _ hm

mutual

theorem Phrase.unique (h : Phrase cs v ds) (h' : Phrase cs w es) : v = w ∧ ds = es := by
  cases h with
  | string hs =>
    cases h' with
    | string hs' =>
      obtain ⟨rfl, rfl⟩ := hs.unique hs'
      exact ⟨rfl, rfl⟩
    | number hn  => cases hn.isNumeric_head
  | number hn =>
    cases h' with
    | string | noItems | items | noMembers | members => cases hn.isNumeric_head
    | number hn' => exact ⟨hn.unique hn', rfl⟩
  | noItems hc =>
    cases h' with
    | noItems hc' => cases hc.symm.trans hc'; exact ⟨rfl, rfl⟩
    | items hi    => exact absurd hc hi.not_closed
    | number hn   => cases hn.isNumeric_head
  | items hi =>
    cases h' with
    | noItems hc => exact absurd hc hi.not_closed
    | items hi'  =>
      obtain ⟨rfl, rfl⟩ := hi.unique hi'
      exact ⟨rfl, rfl⟩
    | number hn  => cases hn.isNumeric_head
  | noMembers hc =>
    cases h' with
    | noMembers hc' => cases hc.symm.trans hc'; exact ⟨rfl, rfl⟩
    | members hm    => exact absurd hc hm.not_closed
    | number hn     => cases hn.isNumeric_head
  | members hm =>
    cases h' with
    | noMembers hc => exact absurd hc hm.not_closed
    | members hm'  =>
      obtain ⟨rfl, rfl⟩ := hm.unique hm'
      exact ⟨rfl, rfl⟩
    | number hn    => cases hn.isNumeric_head

theorem Items.unique (h : Items cs vs ds) (h' : Items cs ws es) : vs = ws ∧ ds = es := by
  cases h with
  | last hp hc =>
    cases h' with
    | last hp' hc'   =>
      obtain ⟨rfl, rfl⟩ := hp.unique hp'
      cases hc.symm.trans hc'
      exact ⟨rfl, rfl⟩
    | more hp' hc' _ =>
      obtain ⟨rfl, rfl⟩ := hp.unique hp'
      cases hc.symm.trans hc'
  | more hp hc hi =>
    cases h' with
    | last hp' hc'     =>
      obtain ⟨rfl, rfl⟩ := hp.unique hp'
      cases hc.symm.trans hc'
    | more hp' hc' hi' =>
      obtain ⟨rfl, rfl⟩ := hp.unique hp'
      cases hc.symm.trans hc'
      obtain ⟨rfl, rfl⟩ := hi.unique hi'
      exact ⟨rfl, rfl⟩

theorem Member.unique (h : Member cs e ds) (h' : Member cs f es) : e = f ∧ ds = es := by
  cases h with
  | intro hq hk hc hp =>
    cases h' with
    | intro hq' hk' hc' hp' =>
      cases hq.symm.trans hq'
      obtain ⟨rfl, rfl⟩ := hk.unique hk'
      cases hc.symm.trans hc'
      obtain ⟨rfl, rfl⟩ := hp.unique hp'
      exact ⟨rfl, rfl⟩

theorem Members.unique (h : Members cs es ds) (h' : Members cs fs gs) : es = fs ∧ ds = gs := by
  cases h with
  | last hm hc =>
    cases h' with
    | last hm' hc'   =>
      obtain ⟨rfl, rfl⟩ := hm.unique hm'
      cases hc.symm.trans hc'
      exact ⟨rfl, rfl⟩
    | more hm' hc' _ =>
      obtain ⟨rfl, rfl⟩ := hm.unique hm'
      cases hc.symm.trans hc'
  | more hm hc hms =>
    cases h' with
    | last hm' hc'      =>
      obtain ⟨rfl, rfl⟩ := hm.unique hm'
      cases hc.symm.trans hc'
    | more hm' hc' hms' =>
      obtain ⟨rfl, rfl⟩ := hm.unique hm'
      cases hc.symm.trans hc'
      obtain ⟨rfl, rfl⟩ := hms.unique hms'
      exact ⟨rfl, rfl⟩

end

-- A text denotes one value at most.
theorem Denotes.unique {text : String} (h : Denotes text v) (h' : Denotes text w) : v = w := by
  obtain ⟨_, hp, _⟩ := h
  obtain ⟨_, hp', _⟩ := h'
  exact (hp.unique hp').left

end ArgTree.Json
