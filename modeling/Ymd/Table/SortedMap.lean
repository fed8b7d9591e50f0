import Ymd.Table.SkipListRefinement
import Ymd.Value.Content

/-! # Skip lists with ordered keys

On integers, booleans, strings and arrays of these `compare` and `equals` agree
with the order of contents, so a skip list with such keys is a sorted map.
-/

namespace Ymd

open Foundation

/-- Integers, booleans, strings, and arrays of such keys nested less than
`depth` deep. -/
def IsOrderedKey (heap : Heap) : (depth : Nat) → Variable → Prop
  | 0, _ => False
  | depth + 1, v =>
      match v with
      | .int _ | .bool _ | .kstr _ => True
      | .dyay o => ∃ elem, heap.obj o = some (.dyay elem) ∧ ∀ e ∈ elem, IsOrderedKey heap depth e
      | _ => False

/-- The content of an ordered key, arbitrary for other values. -/
def content (heap : Heap) : (depth : Nat) → Variable → Content
  | _, .int i => .int i
  | _, .bool i => .bool i
  | _, .kstr z => .kstr z
  | depth + 1, .dyay o =>
      match heap.obj o with
      | some (.dyay elem) => .dyay (elem.map (content heap depth))
      | _ => .dyay []
  | _, _ => .dyay []

section

variable {ops : KeyOps} {IsKey : Variable → Prop} {rank : Variable → Content}

/-- The sign of a comparison is the order of the contents. -/
def SignOf (c : Int) (a b : Content) : Prop := (c < 0 ↔ a < b) ∧ (0 < c ↔ b < a)

theorem safeCompare_sign (l r : Int) :
    (safeCompare l r < 0 ↔ l < r) ∧ (0 < safeCompare l r ↔ r < l) := by
  unfold safeCompare
  split
  next hlt => exact ⟨by simp [hlt], by simp; omega⟩
  next hlt =>
    split
    next hgt => exact ⟨by simp [hlt], by simp [hgt]⟩
    next hgt => exact ⟨by simp; omega, by simp; omega⟩

theorem dyayCompare_sign
    (hcompare : ∀ a b, IsKey a → IsKey b →
      ∃ c, ops.compare a b = pure c ∧ SignOf c (rank a) (rank b))
    {arr rhs : List Variable} (harr : ∀ e ∈ arr, IsKey e) (hrhs : ∀ e ∈ rhs, IsKey e) :
    ∃ c, dyayCompare ops arr rhs = pure c ∧
      SignOf c (.dyay (arr.map rank)) (.dyay (rhs.map rank)) := by
  have hcode : ∀ as bs : List Content, Content.dyay as < .dyay bs ↔
      Content.codes as ++ [0] < Content.codes bs ++ [0] := by
    intro as bs
    simp [Content.lt_iff, Content.code]
  unfold SignOf
  rw [hcode, hcode]
  induction arr generalizing rhs with
  | nil =>
      cases rhs with
      | nil => exact ⟨0, rfl, by simp⟩
      | cons r rhs =>
          obtain ⟨tag, rest, hr, htag⟩ := Content.code_head_pos (rank r)
          refine ⟨-1, rfl, ?_⟩
          have hnot : ¬ tag < 0 := by omega
          simp [Content.codes, hr, List.cons_lt_cons_iff, htag, hnot, htag.ne']
  | cons l arr ih =>
      cases rhs with
      | nil =>
          obtain ⟨tag, rest, hl, htag⟩ := Content.code_head_pos (rank l)
          refine ⟨1, rfl, ?_⟩
          have hnot : ¬ tag < 0 := by omega
          simp [Content.codes, hl, List.cons_lt_cons_iff, htag, hnot, htag.ne]
      | cons r rhs =>
          obtain ⟨c, hc, hlt, hgt⟩ :=
            hcompare l r (harr l List.mem_cons_self) (hrhs r List.mem_cons_self)
          simp only [dyayCompare, hc, pure_bind, List.map_cons, Content.codes, List.append_assoc]
          -- no code begins another one, so the first difference decides
          obtain hcmp | hcmp | hcmp := lt_trichotomy (rank l) (rank r)
          · have hwords := Content.prefixFree_code.append_lt_append hcmp
            refine ⟨-1, by rw [if_pos (hlt.mpr hcmp)], ?_⟩
            exact ⟨by simpa using hwords _ _, by simpa using (hwords _ _).le⟩
          · obtain ⟨c', hrest, hsign⟩ := ih (fun e he => harr e (List.mem_cons_of_mem _ he))
              fun e he => hrhs e (List.mem_cons_of_mem _ he)
            have hnlt : ¬ c < 0 := fun h => absurd (hlt.mp h) (hcmp ▸ lt_irrefl _)
            have hngt : ¬ 0 < c := fun h => absurd (hgt.mp h) (hcmp ▸ lt_irrefl _)
            refine ⟨c', by rw [if_neg hnlt, if_neg hngt, hrest], ?_⟩
            rw [hcmp, append_lt_append_left_iff, append_lt_append_left_iff]
            exact hsign
          · have hwords := Content.prefixFree_code.append_lt_append hcmp
            have hnlt : ¬ c < 0 := fun h => lt_asymm hcmp (hlt.mp h)
            refine ⟨1, by rw [if_neg hnlt, if_pos (hgt.mpr hcmp)], ?_⟩
            exact ⟨by simpa using (hwords _ _).le, by simpa using hwords _ _⟩

theorem equalElems_eq
    (hequals : ∀ a b, IsKey a → IsKey b → ops.equals a b = pure (decide (rank a = rank b)))
    {pairs : List (Variable × Variable)} (hpairs : ∀ p ∈ pairs, IsKey p.1 ∧ IsKey p.2) :
    equalElems ops pairs = pure (decide (∀ p ∈ pairs, rank p.1 = rank p.2)) := by
  induction pairs with
  | nil => rfl
  | cons p pairs ih =>
      obtain ⟨hl, hr⟩ := hpairs p List.mem_cons_self
      have hrest := ih fun q hq => hpairs q (List.mem_cons_of_mem _ hq)
      simp only [equalElems, hequals _ _ hl hr, pure_bind, hrest]
      by_cases heq : rank p.1 = rank p.2
      · rw [if_pos (decide_eq_true heq)]
        exact congrArg pure (decide_eq_decide.mpr (by simp [heq]))
      · rw [if_neg (by simp [heq]), decide_eq_false (fun h => heq (h p List.mem_cons_self))]

theorem dyayEquals_eq
    (hequals : ∀ a b, IsKey a → IsKey b → ops.equals a b = pure (decide (rank a = rank b)))
    {arr rhs : List Variable} (harr : ∀ e ∈ arr, IsKey e) (hrhs : ∀ e ∈ rhs, IsKey e) :
    dyayEquals ops arr rhs = pure (decide (arr.map rank = rhs.map rank)) := by
  unfold dyayEquals
  by_cases hlength : arr.length = rhs.length
  · have hpairs : ∀ p ∈ (arr.zip rhs).reverse, IsKey p.1 ∧ IsKey p.2 := by
      intro p hp
      have hin := List.mem_reverse.mp hp
      exact ⟨harr _ (List.of_mem_zip hin).1, hrhs _ (List.of_mem_zip hin).2⟩
    have hmap : (∀ p ∈ (arr.zip rhs).reverse, rank p.1 = rank p.2) ↔
        arr.map rank = rhs.map rank := by
      simp only [List.mem_reverse]
      clear hpairs harr hrhs
      induction arr generalizing rhs with
      | nil => cases rhs <;> simp at hlength ⊢
      | cons l arr ih =>
          cases rhs with
          | nil => simp at hlength
          | cons r rhs =>
              have hrest := @ih rhs (by simpa using hlength)
              simp [← hrest]
    rw [if_pos hlength, equalElems_eq hequals hpairs]
    congr 1
    exact decide_eq_decide.mpr hmap
  · have hne : arr.map rank ≠ rhs.map rank := fun heq =>
      hlength (by simpa using congrArg List.length heq)
    rw [if_neg hlength, decide_eq_false hne]

end

/-! ## The generic functions on ordered keys -/

theorem content_tag {heap : Heap} {depth : Nat} {v : Variable} (hkey : IsOrderedKey heap depth v) :
    (content heap depth v).tag = v.type := by
  cases depth with
  | zero => exact hkey.elim
  | succ depth =>
      cases v <;> first
        | exact hkey.elim
        | rfl
        | skip
      obtain ⟨elem, hobj, _⟩ := hkey
      simp [content, hobj, Content.tag, Variable.type]

theorem compare_content (heap : Heap) {depth : Nat} {a b : Variable}
    (ha : IsOrderedKey heap depth a) (hb : IsOrderedKey heap depth b) :
    ∃ c, (valueOps heap depth).compare a b = pure c ∧
      SignOf c (content heap depth a) (content heap depth b) := by
  induction depth generalizing a b with
  | zero => exact ha.elim
  | succ depth ih =>
      change ∃ c, compareWith (valueOps heap depth) heap a b = pure c ∧ _
      unfold compareWith
      by_cases htype : a.type = b.type
      · rw [if_neg (fun h => h htype)]
        cases a <;> cases b <;> first
          | exact ha.elim
          | exact hb.elim
          | (simp [Variable.type] at htype; done)
          | skip
        case int.int i j =>
          refine ⟨_, rfl, ?_⟩
          simpa [SignOf, content, Content.int_lt] using safeCompare_sign i.toInt j.toInt
        case bool.bool i j =>
          refine ⟨_, rfl, ?_⟩
          simpa [SignOf, content, Content.bool_lt] using safeCompare_sign i.toInt j.toInt
        case kstr.kstr z z' => exact ⟨_, rfl, Content.kzCompare_sign z z'⟩
        case dyay.dyay o p =>
          obtain ⟨arr, harr, hkeys⟩ := ha
          obtain ⟨rhs, hrhs, hkeys'⟩ := hb
          by_cases hop : o = p
          · subst hop
            exact ⟨0, by simp, by simp [SignOf]⟩
          · simp only [hop, if_false, Heap.dyay, harr, hrhs, pure_bind, content]
            exact dyayCompare_sign (fun a b ha hb => ih ha hb) hkeys hkeys'
      -- values of two types compare as the types do, which are the tags of their contents
      · rw [if_pos htype]
        obtain ⟨hlt, hgt⟩ : (safeCompare a.type b.type < 0 ↔ a.type < b.type) ∧
            (0 < safeCompare a.type b.type ↔ b.type < a.type) := by
          unfold safeCompare
          constructor <;> split <;> (try split) <;> simp <;> omega
        refine ⟨_, rfl, ?_⟩
        rw [← content_tag ha, ← content_tag hb] at hlt hgt htype
        rw [← content_tag ha, ← content_tag hb]
        obtain htag | htag := lt_or_gt_of_ne htype
        · have hcontent := Content.lt_of_tag_lt htag
          exact ⟨hlt.trans (iff_of_true htag hcontent),
            hgt.trans (iff_of_false (lt_asymm htag) (lt_asymm hcontent))⟩
        · have hcontent := Content.lt_of_tag_lt htag
          exact ⟨hlt.trans (iff_of_false (lt_asymm htag) (lt_asymm hcontent)),
            hgt.trans (iff_of_true htag hcontent)⟩

theorem equals_content (heap : Heap) {depth : Nat} {a b : Variable}
    (ha : IsOrderedKey heap depth a) (hb : IsOrderedKey heap depth b) :
    (valueOps heap depth).equals a b =
      pure (decide (content heap depth a = content heap depth b)) := by
  induction depth generalizing a b with
  | zero => exact ha.elim
  | succ depth ih =>
      change equalsWith (valueOps heap depth) heap a b = _
      unfold equalsWith
      by_cases htype : a.type = b.type
      · rw [if_neg (fun h => h htype)]
        cases a <;> cases b <;> first
          | exact ha.elim
          | exact hb.elim
          | (simp [Variable.type] at htype; done)
          | skip
        case int.int i j => simp [content]
        case bool.bool i j => simp [content]
        case kstr.kstr z z' => simp [content]
        case dyay.dyay o p =>
          obtain ⟨arr, harr, hkeys⟩ := ha
          obtain ⟨rhs, hrhs, hkeys'⟩ := hb
          by_cases hop : o = p
          · subst hop
            simp
          · simp only [hop, if_false, Heap.dyay, harr, hrhs, pure_bind, content,
              dyayEquals_eq (fun a b ha hb => ih ha hb) hkeys hkeys', Content.dyay.injEq]
      · have hne : content heap (depth + 1) a ≠ content heap (depth + 1) b := by
          intro heq
          have htag := congrArg Content.tag heq
          rw [content_tag ha, content_tag hb] at htag
          exact htype htag
        rw [if_pos htype, decide_eq_false hne]

theorem orderedKeys_content (heap : Heap) (depth : Nat) :
    OrderedKeys (valueOps heap depth) (IsOrderedKey heap depth) (content heap depth) where
  notNil := by
    intro key hkey
    cases depth with
    | zero => exact hkey.elim
    | succ depth =>
        cases key <;> first
          | rfl
          | exact hkey.elim
  equals := fun ha hb => equals_content heap ha hb
  compare := fun ha hb => by
    obtain ⟨c, hc, hsign⟩ := compare_content heap ha hb
    exact ⟨c, hc, hsign.1⟩

/-! ## Scalar keys -/

/-- The content of an integer, a boolean or a string. -/
def scalarContent : Variable → Content := content Heap.empty 0

theorem content_scalar (heap : Heap) (depth : Nat) {key : Variable} (hkey : key.IsScalarKey) :
    content heap depth key = scalarContent key := by
  cases key <;> first
    | exact hkey.elim
    | cases depth <;> rfl

theorem isOrderedKey_scalar (heap : Heap) (depth : Nat) {key : Variable} (hkey : key.IsScalarKey) :
    IsOrderedKey heap (depth + 1) key := by
  cases key <;> first
    | exact hkey.elim
    | trivial

theorem orderedKeys_scalar (heap : Heap) (depth : Nat) :
    OrderedKeys (valueOps heap (depth + 1)) Variable.IsScalarKey scalarContent where
  notNil := Variable.IsScalarKey.isNil_eq_false
  equals := by
    intro a b ha hb
    have hequals := (orderedKeys_content heap (depth + 1)).equals (isOrderedKey_scalar heap depth ha)
      (isOrderedKey_scalar heap depth hb)
    rwa [content_scalar heap _ ha, content_scalar heap _ hb] at hequals
  compare := by
    intro a b ha hb
    have hcompare := (orderedKeys_content heap (depth + 1)).compare
      (isOrderedKey_scalar heap depth ha) (isOrderedKey_scalar heap depth hb)
    rwa [content_scalar heap _ ha, content_scalar heap _ hb] at hcompare

/-! ## Runs -/

/-- The list visited on level `i`, from the first node on. -/
def Skls.Level (list : Skls) (i : Nat) (cells : List Nat) : Prop :=
  Chain (list.succ i) (list.succ i Skls.head) cells

/-- Every run of puts and stores under ordered keys succeeds, whatever levels
the new nodes get, and leaves the sorted map of the stores. -/
theorem skls_refines_sorted_map (heap : Heap) (depth : Nat)
    {log : List ((Variable × Variable) × Nat)}
    (hkeys : ∀ entry ∈ log, IsOrderedKey heap depth entry.1.1)
    (hlevels : ∀ entry ∈ log, 1 ≤ entry.2 ∧ entry.2 ≤ Skls.maxLevel) :
    ∃ (list : Skls) (level : Nat → List Nat),
      Skls.putAll (valueOps heap depth) Skls.new log = pure list ∧
      (∀ i < Skls.maxLevel, list.Level i (level i)) ∧
      (level 0).Pairwise (fun x y => ∃ c < 0,
        (valueOps heap depth).compare (list.node x).k (list.node y).k = pure c) ∧
      (∀ i, (level (i + 1)).Sublist (level i)) ∧
      (∀ x i, 0 < x → x < list.size → (x ∈ level i ↔ i < (list.node x).n)) ∧
      list.count = ((log.map Prod.fst).map fun entry => content heap depth entry.1).toFinset.card ∧
      (∀ key, IsOrderedKey heap depth key → Skls.get (valueOps heap depth) list key =
        pure ((lastStored ((log.map Prod.fst).map fun entry => (content heap depth entry.1, entry.2))
          (content heap depth key)).getD .nil)) ∧
      ∀ log' : List ((Variable × Variable) × Nat), log'.map Prod.fst = log.map Prod.fst →
        (∀ entry ∈ log', 1 ≤ entry.2 ∧ entry.2 ≤ Skls.maxLevel) →
        ∃ list' entries, Skls.putAll (valueOps heap depth) Skls.new log' = pure list' ∧
          (∀ key, IsOrderedKey heap depth key →
            Skls.get (valueOps heap depth) list' key = Skls.get (valueOps heap depth) list key) ∧
          list.traverse = pure entries ∧ list'.traverse = pure entries := by
  have hlaw := orderedKeys_content heap depth
  obtain ⟨list, cells, hrun, hrep⟩ := Skls.putAll_represents hlaw log hkeys hlevels
  refine ⟨list, fun i => list.onLevel i cells, hrun, fun i hi => (hrep.linked.chain i hi).2, ?_,
    fun i => Skls.onLevel_sublist (Nat.le_succ i), fun x i hpos hsize => ?_, ?_,
    fun key hkey => hrep.get_eq hlaw hkey, fun log' hsame hlevels' => ?_⟩
  · change (list.onLevel 0 cells).Pairwise _
    rw [hrep.linked.onLevel_zero]
    refine hrep.sorted.imp_of_mem fun {x y} hx hy hlt => ?_
    obtain ⟨c, hc, hsign⟩ := hlaw.compare (hrep.keys x hx) (hrep.keys y hy)
    exact ⟨c, hsign.mpr hlt, hc⟩
  · rw [Skls.mem_onLevel, hrep.linked.mem]
    exact ⟨fun h => h.2, fun h => ⟨⟨hpos, hsize⟩, h⟩⟩
  · rw [hrep.linked.count_eq, ← hrep.entries.length_eq, List.length_map]
  · have hkeys' : ∀ entry ∈ log', IsOrderedKey heap depth entry.1.1 := by
      intro entry hentry
      have hin : entry.1 ∈ log.map Prod.fst := hsame ▸ List.mem_map_of_mem hentry
      obtain ⟨other, hother, heq⟩ := List.mem_map.mp hin
      exact heq ▸ hkeys other hother
    obtain ⟨list', cells', hrun', hrep'⟩ := Skls.putAll_represents hlaw log' hkeys' hlevels'
    rw [hsame] at hrep'
    refine ⟨list', cells.map list.entry, hrun', fun key hkey => ?_, hrep.traverse_eq, ?_⟩
    · rw [hrep'.get_eq hlaw hkey, hrep.get_eq hlaw hkey]
    · rw [hrep'.traverse_eq, hrep'.entries.unique hrep.entries]

/-- A heap with the array `[1, "a"]` at addresses 0 and 1. -/
def twoArrays : Heap :=
  ((Heap.empty.alloc (.dyay [.int 1, .kstr [97]])).1.alloc (.dyay [.int 1, .kstr [97]])).1

/-- Puts under equal arrays, an integer and a string, on different levels. -/
def arrayPuts : List ((Variable × Variable) × Nat) :=
  [((.dyay 0, .int 7), 3), ((.int 5, .nil), 16), ((.kstr [97], .int 8), 1),
    ((.dyay 1, .int 9), 2)]

theorem skls_refines_sorted_map_arrays :
    ∃ list, Skls.putAll (valueOps twoArrays 2) Skls.new arrayPuts = pure list ∧
      Skls.get (valueOps twoArrays 2) list (.dyay 0) = pure (.int 9) ∧
      Skls.get (valueOps twoArrays 2) list (.bool 1) = pure .nil := by
  have harray : ∀ o, o = 0 ∨ o = 1 → IsOrderedKey twoArrays 2 (.dyay o) := by
    rintro o (rfl | rfl)
    · exact ⟨[.int 1, .kstr [97]], rfl, by simp [IsOrderedKey]⟩
    · exact ⟨[.int 1, .kstr [97]], rfl, by simp [IsOrderedKey]⟩
  have hkeys : ∀ entry ∈ arrayPuts, IsOrderedKey twoArrays 2 entry.1.1 := by
    simp only [arrayPuts, List.forall_mem_cons]
    exact ⟨harray 0 (Or.inl rfl), trivial, trivial, harray 1 (Or.inr rfl), by simp⟩
  obtain ⟨list, _, hrun, _, _, _, _, _, hget, _⟩ :=
    skls_refines_sorted_map twoArrays 2 hkeys (by decide)
  exact ⟨list, hrun, hget (.dyay 0) (harray 0 (Or.inl rfl)), hget (.bool 1) trivial⟩

end Ymd
