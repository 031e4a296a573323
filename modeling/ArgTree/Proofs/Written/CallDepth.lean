import ArgTree.Json
import ArgTree.Proofs.Parser.Heights
import ArgTree.Proofs.Syntax.Deepest

namespace ArgTree

open Value

-- A way to write trees: what is made of a scalar, and what is made of a list and a map whose parts
-- have been written.
structure Writer (α : Type) where
  str   : String → α
  int   : Int64 → α
  float : Binary64 → α
  list  : List α → α
  map   : List (String × α) → α

namespace Writer

variable {α : Type} (w : Writer α)

def write : Value → α
  | .str s   => w.str s
  | .int n   => w.int n
  | .float f => w.float f
  | .list vs => w.list (items vs)
  | .map es  => w.map (entries es)
where
  items : List Value → List α
    | []      => []
    | v :: vs => write v :: items vs
  entries : List (String × Value) → List (String × α)
    | []           => []
    | (k, v) :: es => (k, write v) :: entries es

-- Writes a value if no more than `limit` calls are open at once. A call for a list or a map stays
-- open while its parts are written.
def writeWithin : (limit : Nat) → Value → Option α
  | 0,         _        => none
  | _ + 1,     .str s   => some (w.str s)
  | _ + 1,     .int n   => some (w.int n)
  | _ + 1,     .float f => some (w.float f)
  | limit + 1, .list vs => (vs.mapM (writeWithin limit)).map w.list
  | limit + 1, .map es  => (es.mapM fun e => (writeWithin limit e.2).map (e.1, ·)).map w.map

-- The texts of expressions.
def expression (spacing : Spacing) : Writer String where
  str      := Written.string
  int      := Written.int
  float    := Written.float
  list ss  := "[" ++ spacing.separator.intercalate ss ++ "]"
  map es   := "\x7b" ++ spacing.separator.intercalate
                (es.map fun (k, s) => Written.key k ++ spacing.equals ++ s) ++ "\x7d"

-- The texts of JSON.
def json : Writer (List Char) where
  str      := Json.string
  int n    := Digits.ofInt n.toInt
  float    := Json.float
  list ss  := '[' :: [','].intercalate ss ++ [']']
  map es   := '{' :: [','].intercalate (es.map fun (k, s) => Json.string k ++ ':' :: s) ++ ['}']

mutual

theorem write_expression (spacing : Spacing) (v : Value) :
    (expression spacing).write v = Written.nested spacing v := by
  cases v
  case str | int | float => rfl
  case list vs =>
    rw [write, Written.nested, ← intercalate_items_expression spacing vs]
    rfl
  case map es  =>
    rw [write, Written.nested, ← intercalate_entries_expression spacing es]
    rfl

theorem intercalate_items_expression (spacing : Spacing) (vs : List Value) :
    spacing.separator.intercalate (write.items (expression spacing) vs) =
      Written.nested.items spacing vs := by
  match vs with
  | []           => rfl
  | [v]          => exact write_expression spacing v
  | v :: v' :: vs =>
    have hi := intercalate_items_expression spacing (v' :: vs)
    rw [write.items] at hi ⊢
    rw [write.items, String.intercalate_cons_cons, hi, write_expression spacing v]
    rfl

theorem intercalate_entries_expression (spacing : Spacing) (es : List (String × Value)) :
    spacing.separator.intercalate ((write.entries (expression spacing) es).map
        fun (k, s) => Written.key k ++ spacing.equals ++ s) =
      Written.nested.entries spacing es := by
  match es with
  | []                     => rfl
  | [(k, v)]               =>
    rw [write.entries, write_expression spacing v]
    rfl
  | (k, v) :: (k', v') :: es =>
    have hi := intercalate_entries_expression spacing ((k', v') :: es)
    rw [write.entries, List.map_cons] at hi ⊢
    rw [write.entries, List.map_cons, String.intercalate_cons_cons, hi, write_expression spacing v]
    rfl

end

mutual

theorem write_json (v : Value) : json.write v = Json.write v := by
  cases v
  case str | int | float => rfl
  case list vs =>
    rw [write, Json.write, ← intercalate_items_json vs]
    rfl
  case map es  =>
    rw [write, Json.write, ← intercalate_entries_json es]
    rfl

theorem intercalate_items_json (vs : List Value) :
    [','].intercalate (write.items json vs) = Json.write.items vs := by
  match vs with
  | []            => rfl
  | [v]           =>
    rw [write.items, write_json v]
    exact List.append_nil _
  | v :: v' :: vs =>
    have hi := intercalate_items_json (v' :: vs)
    rw [write.items] at hi ⊢
    rw [write.items, List.intercalate_cons_cons, hi, write_json v, List.append_assoc]
    rfl

theorem intercalate_entries_json (es : List (String × Value)) :
    [','].intercalate ((write.entries json es).map fun (k, s) => Json.string k ++ ':' :: s) =
      Json.write.entries es := by
  match es with
  | []                       => rfl
  | [(k, v)]                 =>
    rw [write.entries, write_json v]
    exact List.append_nil _
  | (k, v) :: (k', v') :: es =>
    have hi := intercalate_entries_json ((k', v') :: es)
    rw [write.entries, List.map_cons] at hi ⊢
    rw [write.entries, List.map_cons, List.intercalate_cons_cons, hi, write_json v,
      List.append_assoc]
    rfl

end

variable {w} {limit : Nat} {β γ : Type}

theorem write_items (vs : List Value) : write.items w vs = vs.map w.write := by
  induction vs
  case nil          => rfl
  case cons v vs hi => rw [write.items, hi, List.map_cons]

theorem write_entries (es : List (String × Value)) :
    write.entries w es = es.map fun e => (e.1, w.write e.2) := by
  induction es
  case nil          => rfl
  case cons e es hi => rw [write.entries, hi, List.map_cons]

theorem mapM_eq_some {xs : List β} {f : β → Option γ} {g : β → γ} (h : ∀ x ∈ xs, f x = some (g x)) :
    xs.mapM f = some (xs.map g) := by
  induction xs
  case nil          => rfl
  case cons x xs hi =>
    have ⟨hx, hxs⟩ := List.forall_mem_cons.mp h
    simp [List.mapM_cons, hx, hi hxs]

theorem exists_of_mapM_eq_some {xs : List β} {f : β → Option γ} (h : xs.mapM f = some ys) :
    ∀ x ∈ xs, ∃ y, f x = some y := by
  induction xs generalizing ys
  case nil          => exact nofun
  case cons x xs hi =>
    simp only [List.mapM_cons, Option.bind_eq_bind, Option.bind_eq_some_iff] at h
    obtain ⟨y, hy, ys, hys, _⟩ := h
    exact List.forall_mem_cons.mpr ⟨⟨y, hy⟩, hi hys⟩

-- One call more than there are lists and maps inside one another is enough.
theorem writeWithin_of_height_lt (h : v.height < limit) :
    w.writeWithin limit v = some (w.write v) := by
  induction limit generalizing v
  case zero => exact absurd h (Nat.not_lt_zero _)
  case succ limit hi =>
    cases v
    case str | int | float => rfl
    case list vs =>
      have hv := height_items_le_iff.mp (Nat.le_refl (height.items vs))
      have hm := mapM_eq_some fun v hm =>
        hi (Nat.lt_of_le_of_lt (hv v hm) (Nat.lt_of_succ_lt_succ h))
      rw [writeWithin, hm, write, write_items]
      rfl
    case map es  =>
      have he := height_entries_le_iff.mp (Nat.le_refl (height.entries es))
      have hm : es.mapM (fun e => (w.writeWithin limit e.2).map (e.1, ·)) = some _ :=
        mapM_eq_some fun e hm => congrArg (Option.map (e.1, ·)) <|
          hi (Nat.lt_of_le_of_lt (he e hm) (Nat.lt_of_succ_lt_succ h))
      rw [writeWithin, hm, write, write_entries]
      rfl

-- For every list and map there is a call that is open while its parts are written.
theorem height_le_of_writeWithin (h : w.writeWithin limit v = some x) : v.height ≤ limit := by
  induction limit generalizing v x
  case zero => cases h
  case succ limit hi =>
    cases v
    case str | int | float => exact Nat.zero_le _
    case list vs =>
      obtain ⟨ys, hm, _⟩ := Option.map_eq_some_iff.mp h
      refine Nat.succ_le_succ (height_items_le_iff.mpr fun v hv => ?_)
      obtain ⟨y, hy⟩ := exists_of_mapM_eq_some hm v hv
      exact hi hy
    case map es  =>
      obtain ⟨ys, hm, _⟩ := Option.map_eq_some_iff.mp h
      refine Nat.succ_le_succ (height_entries_le_iff.mpr fun e he => ?_)
      obtain ⟨y, hy⟩ := exists_of_mapM_eq_some hm e he
      obtain ⟨_, hy, _⟩ := Option.map_eq_some_iff.mp hy
      exact hi hy

end Writer

theorem Deepest.not_pathsWithin (m : Nat) : ¬(Value.list (items m)).PathsWithin (3 * m + 1) := by
  intro h
  have := h (steps m) _ (descend?_steps m)
  rw [length_steps] at this
  simp [isScalar] at this

-- The bound on the levels bounds how deep a value is that was read: there are three lists and maps
-- for each level, and two more. Some values are as deep as that. So this is how deep the calls go
-- that write it.
theorem pathsWithin_of_parse :
    (∀ (s : TokenSequence) o v, s.parse o = .ok v → v.PathsWithin (3 * o.maxDepth + 2) ∧
      (∀ spacing, (Writer.expression spacing).writeWithin (3 * o.maxDepth + 3) v =
        some (Written.nested spacing v)) ∧
      Writer.json.writeWithin (3 * o.maxDepth + 3) v = some (Json.write v)) ∧
    ∀ m, ∃ text v, parse text { maxDepth := m } = .ok v ∧ ¬v.PathsWithin (3 * m + 1) ∧
      (∀ spacing, (Writer.expression spacing).writeWithin (3 * m + 1) v = none) ∧
      Writer.json.writeWithin (3 * m + 1) v = none := by
  refine ⟨fun s o v h => ?_, fun m => ?_⟩
  case refine_1 =>
    have hh := TokenSequence.height_le_of_parse h
    have hl := Nat.lt_succ_of_le hh
    refine ⟨(pathsWithin_height v).mono hh, fun spacing => ?_, ?_⟩
    · rw [Writer.writeWithin_of_height_lt hl, Writer.write_expression]
    · rw [Writer.writeWithin_of_height_lt hl, Writer.write_json]
  case refine_2 =>
    have hn := Deepest.not_pathsWithin m
    have hw {α} (w : Writer α) : w.writeWithin (3 * m + 1) (.list (Deepest.items m)) = none := by
      rw [Option.eq_none_iff_forall_ne_some]
      exact fun x hx => hn ((pathsWithin_height _).mono (Writer.height_le_of_writeWithin hx))
    exact ⟨_, _, Deepest.parse_eq m, hn, fun spacing => hw _, hw _⟩

-- Only one level is open at a time, and the path to `b` leads through four lists and maps.
theorem pathsWithin_of_parse_group : ∃ s v, TokenSequence.ofSource "x a=[b],c" = .ok s ∧
    s.parse { maxDepth := 1 } = .ok v ∧ v.PathsWithin 5 ∧
    v.descend? [.index 1, .index 0, .key "a", .index 0] = some (.str "b") ∧
    Writer.json.writeWithin 6 v = some (Json.write v) := by
  have hp : parse "x a=[b],c" { maxDepth := 1 } = .ok (.list
      [.str "x", .list [.map [("a", .list [.str "b"])], .str "c"]]) := by cbv
  cases hs : TokenSequence.ofSource "x a=[b],c" <;> simp only [parse, hs] at hp
  case error => cases hp
  case ok s  =>
    obtain ⟨hw, _, hj⟩ := pathsWithin_of_parse.left s _ _ hp
    exact ⟨s, _, rfl, hp, hw, rfl, hj⟩

end ArgTree
