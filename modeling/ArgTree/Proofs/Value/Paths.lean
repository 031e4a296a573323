import ArgTree.Proofs.Number.Texts
import ArgTree.Value.Path

namespace ArgTree

theorem Numeral.index?_ofNat (h : n < 2 ^ 64) : index? (Digits.ofNat n) = some n := by
  have hu : unsigned (Nat.pow 2 64 - 1) .tooLarge (Digits.ofNat n) = .ok n :=
    unsigned_ofNat (Nat.le_sub_one_of_lt h)
  rw [index?, hu]
  · rfl
  · intro cs hc
    have hm : '+' ∈ Digits.ofNat n := hc ▸ List.mem_cons_self
    exact Bool.false_ne_true (Digits.isDigit_of_mem_ofNat hm)

namespace Path

-- What stands behind a path that goes on with `rest`: an index needs no `.` in front of it.
def behind (rest : List Char) : List Char :=
  if rest.head? = some '[' then rest else '.' :: rest

theorem behind_cases (rest : List Char) :
    behind rest = '.' :: rest ∨ ∃ cs, rest = '[' :: cs ∧ behind rest = rest := by
  by_cases h : rest.head? = some '['
  case pos =>
    obtain ⟨cs, hc⟩ := List.head?_eq_some_iff.mp h
    exact .inr ⟨cs, hc, if_pos h⟩
  case neg => exact .inl (if_neg h)

end Path

namespace Step

-- The steps that a path can hold. A key is not empty and has none of the characters that divide a
-- path into steps.
def IsPlain : Step → Prop
  | key name    => name ≠ "" ∧ '.' ∉ name.toList ∧ '[' ∉ name.toList ∧ ']' ∉ name.toList
  | index place => place < 2 ^ 64

-- A step as it is written at the start of a path.
def write : Step → List Char
  | key name    => name.toList
  | index place => '[' :: (Digits.ofNat place ++ [']'])

-- A step as it is written behind another one.
def writeBehind : Step → List Char
  | key name    => '.' :: name.toList
  | index place => '[' :: (Digits.ofNat place ++ [']'])

theorem inKey_iff : read?.inKey c ↔ c ≠ '.' ∧ c ≠ '[' := by
  simp [read?.inKey]

theorem not_inKey_of_behind (h : c ∈ (Path.behind more).head?) : ¬read?.inKey c := by
  rw [inKey_iff]
  rcases Path.behind_cases more with he | ⟨cs, rfl, he⟩ <;> rw [he] at h <;> cases h <;> simp

-- A step stands at the start of a path, and `rest` behind it.
inductive Reads : List Char → Step → List Char → Prop
  | key   : name ≠ [] → (∀ c ∈ name, read?.inKey c) → ']' ∉ name →
            (∀ c ∈ rest.head?, ¬read?.inKey c) →
            Reads (name ++ rest) (key (String.ofList name)) rest
  | index : ']' ∉ digits → Numeral.index? digits = some place →
            Reads ('[' :: (digits ++ ']' :: rest)) (index place) rest

theorem Reads.ne_nil (h : Reads path s rest) : path ≠ [] := by
  cases h with
  | key hn   => exact List.append_ne_nil_of_left_ne_nil hn _
  | index    => exact List.cons_ne_nil _ _

theorem Reads.read?_eq (h : Reads path s rest) : read? path = some (s, rest) := by
  cases h with
  | @key name _ hn hk hc hr =>
    have ht : rest.takeWhile read?.inKey = [] := by cases rest <;> simp_all
    have hd : rest.dropWhile read?.inKey = rest := by cases rest <;> simp_all
    have hb : ∀ path, name ++ rest ≠ '[' :: path := by
      intro path he
      cases name
      case nil         => contradiction
      case cons c name =>
        obtain ⟨rfl, _⟩ := List.cons.inj he
        exact (inKey_iff.mp (hk _ List.mem_cons_self)).right rfl
    rw [read?]
    · simp only [List.takeWhile_append_of_pos hk, List.dropWhile_append_of_pos hk, ht, hd,
        List.append_nil, hn, hc, or_self, ↓reduceIte]
    · exact hb
  | @index digits place rest hc hi =>
    have hd : ∀ c ∈ digits, decide (c ≠ ']') := fun c hm => decide_eq_true fun he => hc (he ▸ hm)
    rw [read?, List.dropWhile_append_of_pos hd, List.takeWhile_append_of_pos hd]
    simp [hi]

theorem reads_of_read? (h : read? path = some (s, rest)) : Reads path s rest := by
  unfold read? at h
  split at h
  case h_1 path =>
    split at h <;> try contradiction
    case h_2 c _ hd =>
      obtain ⟨place, hi, he⟩ := Option.map_eq_some_iff.mp h
      cases he
      have hc : c = ']' := by
        have hh := List.head?_dropWhile_not (· ≠ ']') path
        rw [hd] at hh
        simpa using hh
      have hn : ']' ∉ path.takeWhile (· ≠ ']') := fun hm => by
        simpa using List.mem_takeWhile_imp hm
      have hp := path.takeWhile_append_dropWhile (p := (· ≠ ']'))
      rw [hd, hc] at hp
      rw [← hp]
      exact .index hn (hp.symm ▸ hi)
  case h_2 =>
    dsimp only at h
    split at h <;> cases h
    case isFalse hn =>
      obtain ⟨hn, hc⟩ := not_or.mp hn
      have hr : ∀ c ∈ (path.dropWhile read?.inKey).head?, ¬read?.inKey c := fun c hm => by
        have hh := List.head?_dropWhile_not read?.inKey path
        rw [Option.mem_def.mp hm] at hh
        simpa using hh
      have hk := Reads.key hn (fun _ => List.mem_takeWhile_imp) hc hr
      rwa [List.takeWhile_append_dropWhile] at hk

-- How a step is read does not depend on how the path goes on.
theorem Reads.append (h : Reads path s rest) (more : List Char) :
    Reads (path ++ Path.behind more) s (rest ++ Path.behind more) := by
  cases h with
  | key hn hk hc hr =>
    rw [List.append_assoc]
    refine .key hn hk hc fun c hm => ?_
    cases rest
    case nil  => exact not_inKey_of_behind hm
    case cons => exact hr c hm
  | index hc hi =>
    rw [List.cons_append, List.append_assoc, List.cons_append]
    exact .index hc hi

theorem reads_write {s : Step} (h : s.IsPlain) : Reads s.write s [] := by
  cases s
  case key name =>
    obtain ⟨hn, hp, hb, hc⟩ := h
    have hk : ∀ c ∈ name.toList, read?.inKey c := fun c hm =>
      inKey_iff.mpr ⟨by rintro rfl; exact hp hm, by rintro rfl; exact hb hm⟩
    have hr : Reads (name.toList ++ []) _ [] := .key (by simpa using hn) hk hc (by simp)
    rwa [List.append_nil, String.ofList_toList] at hr
  case index place =>
    refine .index (fun hm => ?_) (Numeral.index?_ofNat h)
    exact Bool.false_ne_true (Digits.isDigit_of_mem_ofNat hm)

theorem continuation?_behind (h : more ≠ []) : continuation? (Path.behind more) = some more := by
  rcases Path.behind_cases more with he | ⟨cs, rfl, he⟩ <;> rw [he]
  case inl =>
    rw [continuation?]
    simpa using h
  case inr => rfl

theorem eq_nil_of_continuation? (h : continuation? rest = some []) : rest = [] := by
  unfold continuation? at h
  split at h <;> simp_all

-- What follows a step goes on in the same way.
theorem continuation?_append (h : continuation? rest = some path) (hp : path ≠ [])
    (more : List Char) :
    continuation? (rest ++ more) = some (path ++ more) := by
  unfold continuation? at h
  split at h <;> cases h
  case h_1 => contradiction
  case h_3 hn =>
    rw [List.cons_append, continuation?]
    simp [hp]
  case h_4 => rfl

end Step

namespace Path

theorem steps?_nil : steps? [] = some [] := by
  rw [steps?, if_pos rfl]

theorem steps?_of_ne_nil (h : path ≠ []) : steps? path = (Step.read? path).bind fun r =>
    (Step.continuation? r.2).bind fun path => (steps? path).map (r.1 :: ·) := by
  rw [steps?, if_neg h]
  split
  case h_1 hr => rw [hr]; rfl
  case h_2 hr =>
    rw [hr]
    split <;> rename_i hc <;> simp [hc]

-- The steps of a path come first, and then those that the path goes on with, if it goes on well.
theorem steps?_append (h : steps? path = some ss) (hp : path ≠ []) (hm : more ≠ []) :
    steps? (path ++ behind more) = (steps? more).map (ss ++ ·) := by
  have hr := h
  rw [steps?_of_ne_nil hp] at hr
  simp only [Option.bind_eq_some_iff, Option.map_eq_some_iff] at hr
  obtain ⟨⟨s, rest⟩, hs, path', hc, ss, hss, rfl⟩ := hr
  rw [steps?_of_ne_nil (by simp [hp]), ((Step.reads_of_read? hs).append more).read?_eq,
    Option.bind_some]
  by_cases hn : path' = []
  case pos =>
    subst hn
    cases Step.eq_nil_of_continuation? hc
    rw [List.nil_append, Step.continuation?_behind hm, Option.bind_some]
    cases steps?_nil.symm.trans hss
    rfl
  case neg =>
    have hlt : path'.length < path.length :=
      Nat.lt_of_le_of_lt (Step.length_le_of_continuation? hc) (Step.length_lt_of_read? hs)
    rw [Step.continuation?_append hc hn, Option.bind_some, steps?_append hss hn hm, Option.map_map]
    rfl
termination_by path.length

-- The path that some steps are written as.
def write : List Step → List Char
  | []      => []
  | s :: ss => s.write ++ ss.flatMap Step.writeBehind

theorem behind_write {s : Step} (h : s.IsPlain) (ss : List Step) :
    behind (write (s :: ss)) = s.writeBehind ++ ss.flatMap Step.writeBehind := by
  cases s
  case key name =>
    have hb : (name.toList ++ ss.flatMap Step.writeBehind).head? ≠ some '[' := by
      obtain ⟨hn, _, hb, _⟩ := h
      intro he
      rw [List.head?_append_of_ne_nil _ (by simpa using hn)] at he
      exact hb (List.mem_of_head? he)
    rw [write, Step.write, behind, if_neg hb]
    rfl
  case index => rfl

-- Each way of writing a path is read back step by step.
theorem steps?_write (h : ∀ s ∈ steps, s.IsPlain) : steps? (write steps) = some steps := by
  induction steps
  case nil => exact steps?_nil
  case cons s ss ih =>
    obtain ⟨hs, hss⟩ := List.forall_mem_cons.mp h
    have hw : s.write ≠ [] := Step.Reads.ne_nil (Step.reads_write hs)
    have h1 : steps? s.write = some [s] := by
      rw [steps?_of_ne_nil hw, (Step.reads_write hs).read?_eq]
      simp [Step.continuation?, steps?_nil]
    cases ss
    case nil       => simpa [write] using h1
    case cons t ss =>
      have ht := hss t List.mem_cons_self
      have hn : write (t :: ss) ≠ [] := by
        simp [write, Step.Reads.ne_nil (Step.reads_write ht)]
      have ha := steps?_append h1 hw hn
      rw [behind_write ht, ih hss] at ha
      exact ha

end Path

namespace Value

-- A value is reached from another one by steps: by name in a map and by place in a list.
inductive Reaches : Value → List Step → Value → Prop
  | here  : Reaches v [] v
  | key   : Entries.get? entries name = some v → Reaches v steps w →
            Reaches (.map entries) (.key name :: steps) w
  | index : items[place]? = some v → Reaches v steps w →
            Reaches (.list items) (.index place :: steps) w

theorem reaches_of_child? (h : v.child? s = some u) (hr : Reaches u steps w) :
    Reaches v (s :: steps) w := by
  unfold child? at h
  split at h
  case h_1 => exact .key h hr
  case h_2 => exact .index h hr
  case h_3 => contradiction

theorem descend?_cons (v : Value) (s : Step) (steps : List Step) :
    v.descend? (s :: steps) = (v.child? s).bind (·.descend? steps) := rfl

theorem descend?_append (v : Value) (ss ts : List Step) :
    v.descend? (ss ++ ts) = (v.descend? ss).bind (·.descend? ts) :=
  List.foldlM_append

theorem reaches_iff_descend? : Reaches v steps w ↔ v.descend? steps = some w := by
  constructor
  case mp =>
    intro h
    induction h
    case here            => rfl
    case key hg _ ih     => rw [descend?_cons, child?, hg, Option.bind_some, ih]
    case index hi _ ih   => rw [descend?_cons, child?, hi, Option.bind_some, ih]
  case mpr =>
    intro h
    induction steps generalizing v
    case nil          => cases h; exact .here
    case cons s ss ih =>
      obtain ⟨u, hu, hd⟩ := Option.bind_eq_some_iff.mp (descend?_cons v s ss ▸ h)
      exact reaches_of_child? hu (ih hd)

theorem get?_ofList_write (h : ∀ s ∈ steps, s.IsPlain) (v : Value) :
    v.get? (String.ofList (Path.write steps)) = v.descend? steps := by
  rw [get?, String.toList_ofList, Path.steps?_write h, Option.bind_some]

theorem ofList_behind (q : String) : String.ofList (Path.behind q.toList) =
    if q.toList.head? = some '[' then q else "." ++ q := by
  rw [Path.behind]
  split
  case isTrue  => exact String.ofList_toList
  case isFalse => exact String.toList_inj.mp (by simp)

-- Where a path leads to a value, going on from it is going on from that value.
theorem get?_append_behind (h : get? v p = some w) (hp : p ≠ "") (hq : q ≠ "") :
    get? v (p ++ String.ofList (Path.behind q.toList)) = get? w q := by
  obtain ⟨ss, hs, hd⟩ := Option.bind_eq_some_iff.mp h
  have hn : p.toList ≠ [] ∧ q.toList ≠ [] := by simp [hp, hq]
  have ha := Path.steps?_append hs hn.left hn.right
  rw [get?, String.toList_append, String.toList_ofList, ha, get?]
  cases Path.steps? q.toList
  case none    => rfl
  case some ts => simp [descend?_append, hd]

-- A written path leads to what its steps reach one after the other. A path that leads to a value
-- can be continued by any other one, which then finds, or fails to find, what it does in that value
-- alone, whether or not it is well formed.
theorem get?_walks (v w : Value) :
    (∀ steps, (∀ s ∈ steps, s.IsPlain) →
      (v.get? (String.ofList (Path.write steps)) = some w ↔ v.Reaches steps w)) ∧
    ∀ p q, p ≠ "" → v.get? p = some w → q ≠ "" →
      v.get? (p ++ if q.toList.head? = some '[' then q else "." ++ q) = w.get? q := by
  constructor
  case left =>
    intro steps hs
    rw [get?_ofList_write hs, reaches_iff_descend?]
  case right =>
    intro p q hp hw hq
    rw [← ofList_behind]
    exact get?_append_behind hw hp hq

theorem get?_walks_ports :
    let ports := list [int 1, map [("port", int 8080)]]
    let tree := map [("ports", ports)]
    let steps := [.key "ports", .index 1, .key "port"]
    (∀ s ∈ steps, Step.IsPlain s) ∧ String.ofList (Path.write steps) = "ports[1].port" ∧
    tree.Reaches steps (int 8080) ∧ tree.get? "ports[1].port" = some (int 8080) ∧
    tree.get? "ports" = some ports ∧
    tree.get? ("ports" ++ "[1].port") = ports.get? "[1].port" ∧
    tree.get? ("ports" ++ "." ++ "1]") = ports.get? "1]" ∧ ports.get? "1]" = none := by
  intro ports tree steps
  have hs : ∀ s ∈ steps, Step.IsPlain s := by
    simp [steps, Step.IsPlain]
  have hw : String.ofList (Path.write steps) = "ports[1].port" := by cbv
  have hr : tree.Reaches steps (int 8080) := .key rfl (.index rfl (.key rfl .here))
  have hp : tree.get? "ports" = some ports := by cbv
  have hg := ((get?_walks tree (int 8080)).left steps hs).mpr hr
  have hc := (get?_walks tree ports).right "ports"
  refine ⟨hs, hw, hr, hw ▸ hg, hp, ?_, ?_, by cbv⟩
  case refine_1 => exact hc "[1].port" (by decide) hp (by decide)
  case refine_2 => exact hc "1]" (by decide) hp (by decide)

end Value

end ArgTree
