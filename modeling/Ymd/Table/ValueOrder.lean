import Ymd.Table.Acyclic
import Ymd.Table.SameHash
import Ymd.Table.SortedMap

/-! # The order of values

`compare` orders values by their types and then by what is in them, lite
pointers all alike. Arrays are ordered by the first difference. On two different
hash maps or skip lists it adds up what the values under the keys of one side
compare to, which is no order; where the first difference lies elsewhere it is
the order of the forms below.
-/

namespace Ymd

open Foundation

/-- A content behind the tag of a type. -/
def tagged (tag : Nat) (payload : List Content) : Content :=
  .dyay (.int (BitVec.ofNat 64 tag) :: payload)

/-- An address, told from every other one. -/
def addressOf (o : Addr) : Content := .dyay (List.replicate o (.dyay []))

/-- What there is to compare in a value, hash maps and skip lists by address and
lite pointers not at all. -/
def form (heap : Heap) : (depth : Nat) → Variable → Content
  | _, .nil => tagged 0 []
  | _, .int i => tagged 1 [.int i]
  | _, .bool i => tagged 2 [.bool i]
  | _, .ext _ => tagged 3 []
  | _, .kstr z => tagged 4 [.kstr z]
  | _, .func o => tagged 5 [addressOf o]
  | 0, .dyay o => tagged 6 [addressOf o]
  | depth + 1, .dyay o =>
      match heap.dyay o with
      | .ok elem => tagged 6 [.dyay (elem.map (form heap depth))]
      | .error _ => tagged 6 []
  | _, .hmap o => tagged 7 [addressOf o]
  | _, .skls o => tagged 8 [addressOf o]
  | _, .mand o => tagged 9 [addressOf o]

/-- Two different hash maps, or two different skip lists. -/
def MapsClash : Variable → Variable → Prop
  | .hmap o, .hmap p => o ≠ p
  | .skls o, .skls p => o ≠ p
  | _, _ => False

/-- Two different lite pointers. -/
def PointersClash : Variable → Variable → Prop
  | .ext p, .ext q => p ≠ q
  | _, _ => False

/-- The elements at one place keep out of each other's way, up to the first two
that are not the same. -/
def AvoidsUpTo (same avoids : Variable → Variable → Prop) : List Variable → List Variable → Prop
  | l :: arr, r :: rhs => avoids l r ∧ (same l r → AvoidsUpTo same avoids arr rhs)
  | _, _ => True

/-- Up to the first difference, no two values at one place clash. -/
def Avoids (heap : Heap) (clash : Variable → Variable → Prop) :
    (depth : Nat) → Variable → Variable → Prop
  | 0, _, _ => True
  | depth + 1, v, w =>
      ¬ clash v w ∧
        match v, w with
        | .dyay o, .dyay p => o ≠ p → ∀ arr rhs, heap.dyay o = .ok arr → heap.dyay p = .ok rhs →
            AvoidsUpTo (fun l r => form heap depth l = form heap depth r)
              (Avoids heap clash depth) arr rhs
        | _, _ => True

/-- From some number of nested calls on. -/
def InDepth (holds : Nat → Prop) : Prop := ∃ n, ∀ depth, n ≤ depth → holds depth

section

variable {ops : KeyOps} {heap : Heap} {a b c : Variable} {depth : Nat}

theorem addressOf_inj {o p : Addr} (h : addressOf o = addressOf p) : o = p := by
  have hlength := congrArg List.length (Content.dyay.inj h)
  rwa [List.length_replicate, List.length_replicate] at hlength

theorem tag_toInt {tag : Nat} (htag : tag < 10) : (BitVec.ofNat 64 tag).toInt = tag := by
  rw [BitVec.toInt_ofNat', Int.bmod_eq_of_le (by omega) (by omega)]

theorem tagged_lt_of_lt {tag tag' : Nat} {payload payload' : List Content} (htag' : tag' < 10)
    (hlt : tag < tag') : tagged tag payload < tagged tag' payload' := by
  rw [tagged, tagged, Content.dyay_cons_lt, Content.int_lt, tag_toInt htag',
    tag_toInt (hlt.trans htag')]
  exact .inl (Int.ofNat_lt.2 hlt)

theorem tagged_lt_iff {tag : Nat} {x y : Content} : tagged tag [x] < tagged tag [y] ↔ x < y := by
  simp [tagged, Content.dyay_cons_lt]

theorem tagged_inj {tag : Nat} {x y : Content} : tagged tag [x] = tagged tag [y] ↔ x = y := by
  simp [tagged]

theorem type_lt (v : Variable) : v.type < 10 := by
  cases v <;> simp [Variable.type]

theorem eq_nil_of_type (htype : a.type = Variable.nil.type) : a = .nil := by
  cases a <;> first
    | rfl
    | cases htype

theorem eq_ext_of_type {p : BitVec 64} (htype : a.type = (Variable.ext p).type) : ∃ q, a = .ext q := by
  cases a <;> first
    | exact ⟨_, rfl⟩
    | cases htype

theorem form_eq_tagged (heap : Heap) (depth : Nat) (v : Variable) :
    ∃ payload, form heap depth v = tagged v.type payload := by
  cases v with
  | dyay o =>
      cases depth with
      | zero => exact ⟨_, rfl⟩
      | succ depth =>
          unfold form
          split
          next => exact ⟨_, rfl⟩
          next => exact ⟨_, rfl⟩
  | nil => cases depth <;> exact ⟨_, rfl⟩
  | int i => cases depth <;> exact ⟨_, rfl⟩
  | bool i => cases depth <;> exact ⟨_, rfl⟩
  | ext p => cases depth <;> exact ⟨_, rfl⟩
  | kstr z => cases depth <;> exact ⟨_, rfl⟩
  | func o => cases depth <;> exact ⟨_, rfl⟩
  | hmap o => cases depth <;> exact ⟨_, rfl⟩
  | skls o => cases depth <;> exact ⟨_, rfl⟩
  | mand o => cases depth <;> exact ⟨_, rfl⟩

theorem form_lt_of_type (hlt : a.type < b.type) : form heap depth a < form heap depth b := by
  obtain ⟨payload, ha⟩ := form_eq_tagged heap depth a
  obtain ⟨payload', hb⟩ := form_eq_tagged heap depth b
  rw [ha, hb]
  exact tagged_lt_of_lt (type_lt b) hlt

theorem type_eq_of_form (heq : form heap depth a = form heap depth b) : a.type = b.type := by
  rcases lt_trichotomy a.type b.type with hlt | htype | hlt
  · exact absurd heq (form_lt_of_type hlt).ne
  · exact htype
  · exact absurd heq (form_lt_of_type hlt).ne'

theorem SignOf.refl (x : Content) : SignOf 0 x x := ⟨by simp, by simp⟩

theorem SignOf.tagged {tag : Nat} {x y : Content} {s : Int} (hsign : SignOf s x y) :
    SignOf s (tagged tag [x]) (tagged tag [y]) := by
  unfold SignOf
  rw [tagged_lt_iff, tagged_lt_iff]
  exact hsign

/-- `dyay_compare` is the order of arrays as far as the elements agree with it. -/
theorem dyayCompare_signOf {rank : Variable → Content} {avoids : Variable → Variable → Prop}
    (hsign : ∀ l r s, avoids l r → ops.compare l r = .ok s → SignOf s (rank l) (rank r))
    {arr rhs : List Variable} (havoids : AvoidsUpTo (fun l r => rank l = rank r) avoids arr rhs)
    {s : Int} (hok : dyayCompare ops arr rhs = .ok s) :
    SignOf s (.dyay (arr.map rank)) (.dyay (rhs.map rank)) := by
  induction arr generalizing rhs with
  | nil =>
      cases rhs with
      | nil =>
          cases hok
          exact .refl _
      | cons r rhs =>
          cases hok
          have hlt := Content.dyay_nil_lt (rank r) (rhs.map rank)
          exact ⟨iff_of_true (by decide) hlt, iff_of_false (by decide) (lt_asymm hlt)⟩
  | cons l arr ih =>
      cases rhs with
      | nil =>
          cases hok
          have hlt := Content.dyay_nil_lt (rank l) (arr.map rank)
          exact ⟨iff_of_false (by decide) (lt_asymm hlt), iff_of_true (by decide) hlt⟩
      | cons r rhs =>
          obtain ⟨hhead, htail⟩ := havoids
          cases hcompare : ops.compare l r with
          | error e =>
              simp only [dyayCompare, hcompare, bind, Except.bind] at hok
              cases hok
          | ok x =>
              obtain ⟨hlt, hgt⟩ := hsign l r x hhead hcompare
              simp only [dyayCompare, hcompare, bind, Except.bind] at hok
              unfold SignOf
              rw [List.map_cons, List.map_cons, Content.dyay_cons_lt, Content.dyay_cons_lt]
              split at hok
              next hneg =>
                cases hok
                have hrank := hlt.1 hneg
                refine ⟨iff_of_true (by decide) (.inl hrank), iff_of_false (by decide) ?_⟩
                rintro (hrank' | ⟨heq, _⟩)
                · exact lt_asymm hrank hrank'
                · exact hrank.ne' heq
              next hneg =>
                split at hok
                next hpos =>
                  cases hok
                  have hrank := hgt.1 hpos
                  refine ⟨iff_of_false (by decide) ?_, iff_of_true (by decide) (.inl hrank)⟩
                  rintro (hrank' | ⟨heq, _⟩)
                  · exact lt_asymm hrank hrank'
                  · exact hrank.ne' heq
                next hpos =>
                  have hrank : rank l = rank r :=
                    le_antisymm (not_lt.1 fun h => hpos (hgt.2 h)) (not_lt.1 fun h => hneg (hlt.2 h))
                  obtain ⟨hlt', hgt'⟩ := ih (htail hrank) hok
                  simp only [hrank, lt_irrefl, true_and, false_or]
                  exact ⟨hlt', hgt'⟩

/-- Where no two maps clash, `compare` is the order of the forms. -/
theorem compare_form {s : Int} (hok : (valueOps heap depth).compare a b = .ok s)
    (havoids : Avoids heap MapsClash depth a b) :
    SignOf s (form heap depth a) (form heap depth b) := by
  induction depth generalizing a b s with
  | zero => cases hok
  | succ depth ih =>
      change compareWith (valueOps heap depth) heap a b = .ok s at hok
      unfold compareWith at hok
      split at hok
      -- values of two types are ordered by the types
      next htype =>
        obtain rfl := Except.ok.inj hok
        have hbetween : ∀ {v w : Variable}, v.type < w.type →
            form heap (depth + 1) v < form heap (depth + 1) w := form_lt_of_type
        unfold SignOf safeCompare
        rcases lt_or_gt_of_ne htype with hlt | hlt
        · rw [if_pos hlt]
          exact ⟨iff_of_true (by decide) (hbetween hlt),
            iff_of_false (by decide) (lt_asymm (hbetween hlt))⟩
        · rw [if_neg (lt_asymm hlt), if_pos hlt]
          exact ⟨iff_of_false (by decide) (lt_asymm (hbetween hlt)),
            iff_of_true (by decide) (hbetween hlt)⟩
      next htype =>
        replace htype := not_not.1 htype
        split at hok
        next =>
          obtain rfl := eq_nil_of_type htype.symm
          cases hok
          exact .refl _
        next i j =>
          obtain rfl := Except.ok.inj hok
          apply SignOf.tagged
          simpa [SignOf, Content.int_lt] using safeCompare_sign i.toInt j.toInt
        next i j =>
          obtain rfl := Except.ok.inj hok
          apply SignOf.tagged
          simpa [SignOf, Content.bool_lt] using safeCompare_sign i.toInt j.toInt
        next z z' =>
          obtain rfl := Except.ok.inj hok
          apply SignOf.tagged
          exact Content.kzCompare_sign z z'
        next p =>
          obtain ⟨q, rfl⟩ := eq_ext_of_type htype.symm
          cases hok
          exact .refl _
        next o p =>
          split at hok
          next heq =>
            cases hok
            rw [heq]
            exact .refl _
          next hne =>
            simp only [except_bind_ok_iff] at hok
            obtain ⟨arr, harr, rhs, hrhs, hok⟩ := hok
            simp only [form, harr, hrhs]
            apply SignOf.tagged
            exact dyayCompare_signOf (fun l r s havoids hok => ih hok havoids)
              (havoids.2 hne arr rhs harr hrhs) hok
        next o p =>
          obtain rfl : o = p := not_not.1 havoids.1
          rw [if_pos rfl] at hok
          cases hok
          exact .refl _
        next o p =>
          obtain rfl : o = p := not_not.1 havoids.1
          rw [if_pos rfl] at hok
          cases hok
          exact .refl _
        next => cases hok

/-! ## Equality -/

theorem map_form_eq_of_equals {rank : Variable → Content} {avoids : Variable → Variable → Prop}
    (hform : ∀ l r, avoids l r → ops.equals l r = .ok true → rank l = rank r)
    {arr rhs : List Variable} (havoids : AvoidsUpTo (fun l r => rank l = rank r) avoids arr rhs)
    (hlen : arr.length = rhs.length) (hequals : ∀ e ∈ arr.zip rhs, ops.equals e.1 e.2 = .ok true) :
    arr.map rank = rhs.map rank := by
  induction arr generalizing rhs with
  | nil =>
      cases rhs with
      | nil => rfl
      | cons r rhs => cases hlen
  | cons l arr ih =>
      cases rhs with
      | nil => cases hlen
      | cons r rhs =>
          obtain ⟨hhead, htail⟩ := havoids
          have hrank := hform l r hhead (hequals (l, r) List.mem_cons_self)
          rw [List.map_cons, List.map_cons, hrank, ih (htail hrank) (Nat.succ.inj hlen)
            fun e he => hequals e (List.mem_cons_of_mem _ he)]

/-- Where no two maps clash, equal values have one form. -/
theorem form_eq_of_equals (hok : (valueOps heap depth).equals a b = .ok true)
    (havoids : Avoids heap MapsClash depth a b) : form heap depth a = form heap depth b := by
  induction depth generalizing a b with
  | zero => cases hok
  | succ depth ih =>
      change equalsWith (valueOps heap depth) heap a b = .ok true at hok
      have htype := type_eq_of_equals hok
      unfold equalsWith at hok
      rw [if_neg (not_not.2 htype)] at hok
      split at hok
      next => rw [eq_nil_of_type htype.symm]
      next o p =>
        split at hok
        next heq => rw [heq]
        next hne =>
          simp only [except_bind_ok_iff] at hok
          obtain ⟨arr, harr, rhs, hrhs, hsame⟩ := hok
          obtain ⟨hlen, hsame⟩ := dyayEquals_eq_true.1 hsame
          have helems := map_form_eq_of_equals (fun l r havoids hok => ih hok havoids)
            (havoids.2 hne arr rhs harr hrhs) hlen hsame
          simp only [form, harr, hrhs, helems]
      next o p => rw [show o = p from not_not.1 havoids.1]
      next o p => rw [show o = p from not_not.1 havoids.1]
      next => cases hok
      next => rw [of_decide_eq_true (Except.ok.inj hok)]

theorem AvoidsUpTo.of_map_eq {rank : Variable → Content} {avoids : Variable → Variable → Prop}
    {arr rhs : List Variable} (havoids : AvoidsUpTo (fun l r => rank l = rank r) avoids arr rhs)
    (hform : arr.map rank = rhs.map rank) :
    ∀ e ∈ arr.zip rhs, avoids e.1 e.2 ∧ rank e.1 = rank e.2 := by
  induction arr generalizing rhs with
  | nil => exact fun e he => absurd he List.not_mem_nil
  | cons l arr ih =>
      cases rhs with
      | nil => exact fun e he => absurd he List.not_mem_nil
      | cons r rhs =>
          obtain ⟨hhead, htail⟩ := havoids
          obtain ⟨hrank, hrest⟩ := List.cons.inj hform
          intro e he
          rcases List.mem_cons.1 he with rfl | he
          · exact ⟨hhead, hrank⟩
          · exact ih (htail hrank) hrest e he

theorem equalElems_true {pairs : List (Variable × Variable)} {e : Bool}
    (hpairs : ∀ p ∈ pairs, ∀ e, ops.equals p.1 p.2 = .ok e → e = true)
    (hok : equalElems ops pairs = .ok e) : e = true := by
  induction pairs with
  | nil =>
      cases hok
      rfl
  | cons p pairs ih =>
      obtain ⟨l, r⟩ := p
      simp only [equalElems, except_bind_ok_iff] at hok
      obtain ⟨same, hsame, hrest⟩ := hok
      obtain rfl := hpairs (l, r) List.mem_cons_self same hsame
      exact ih (fun p hp => hpairs p (List.mem_cons_of_mem _ hp)) hrest

/-- The form tells everything but arrays and lite pointers apart. -/
theorem eq_of_form (hform : form heap (depth + 1) a = form heap (depth + 1) b)
    (hpointers : ¬ PointersClash a b) (harrays : ∀ o p, a = .dyay o → b ≠ .dyay p) : a = b := by
  have htype := type_eq_of_form hform
  cases a <;> cases b <;> cases htype
  case nil.nil => rfl
  case int.int i j => rw [Content.int.inj (tagged_inj.1 hform)]
  case bool.bool i j => rw [Content.bool.inj (tagged_inj.1 hform)]
  case ext.ext p q => rw [not_not.1 hpointers]
  case kstr.kstr z z' => rw [Content.kstr.inj (tagged_inj.1 hform)]
  case func.func o p => rw [addressOf_inj (tagged_inj.1 hform)]
  case dyay.dyay o p => exact absurd rfl (harrays o p rfl)
  case hmap.hmap o p => rw [addressOf_inj (tagged_inj.1 hform)]
  case skls.skls o p => rw [addressOf_inj (tagged_inj.1 hform)]
  case mand.mand o p => rw [addressOf_inj (tagged_inj.1 hform)]

/-- Values of one form without different pointers are equal. -/
theorem equals_of_form {e : Bool} (hok : (valueOps heap depth).equals a b = .ok e)
    (hmaps : Avoids heap MapsClash depth a b) (hpointers : Avoids heap PointersClash depth a b)
    (hform : form heap depth a = form heap depth b) : e = true := by
  induction depth generalizing a b e with
  | zero => cases hok
  | succ depth ih =>
      change equalsWith (valueOps heap depth) heap a b = .ok e at hok
      have htype := type_eq_of_form hform
      unfold equalsWith at hok
      rw [if_neg (not_not.2 htype)] at hok
      split at hok
      next => exact (Except.ok.inj hok).symm
      next o p =>
        split at hok
        next => exact (Except.ok.inj hok).symm
        next hne =>
          simp only [except_bind_ok_iff] at hok
          obtain ⟨arr, harr, rhs, hrhs, hsame⟩ := hok
          simp only [form, harr, hrhs] at hform
          have helems : arr.map (form heap depth) = rhs.map (form heap depth) :=
            Content.dyay.inj (tagged_inj.1 hform)
          have hlen : arr.length = rhs.length := by simpa using congrArg List.length helems
          rw [dyayEquals, if_pos hlen] at hsame
          have hmaps := (hmaps.2 hne arr rhs harr hrhs).of_map_eq helems
          have hpointers := (hpointers.2 hne arr rhs harr hrhs).of_map_eq helems
          refine equalElems_true (fun q hq e hok => ?_) hsame
          have hq := List.mem_reverse.1 hq
          exact ih hok (hmaps q hq).1 (hpointers q hq).1 (hmaps q hq).2
      next o p =>
        rw [if_pos (not_not.1 hmaps.1)] at hok
        exact (Except.ok.inj hok).symm
      next o p =>
        rw [if_pos (not_not.1 hmaps.1)] at hok
        exact (Except.ok.inj hok).symm
      next => cases hok
      next hnil hmand hdyay hhmap hskls =>
        have heq : a = b := eq_of_form hform hpointers.1 fun o p ho hp => hdyay o p ho hp
        rw [← Except.ok.inj hok, heq]
        exact decide_eq_true rfl

/-! ## The order -/

theorem AvoidsUpTo.symm {rank : Variable → Content} {avoids avoids' : Variable → Variable → Prop}
    (hsymm : ∀ l r, avoids l r → avoids' r l) {arr rhs : List Variable}
    (havoids : AvoidsUpTo (fun l r => rank l = rank r) avoids arr rhs) :
    AvoidsUpTo (fun l r => rank l = rank r) avoids' rhs arr := by
  induction arr generalizing rhs with
  | nil => cases rhs <;> trivial
  | cons l arr ih =>
      cases rhs with
      | nil => trivial
      | cons r rhs => exact ⟨hsymm l r havoids.1, fun hsame => ih (havoids.2 hsame.symm)⟩

theorem MapsClash.symm (hclash : MapsClash a b) : MapsClash b a := by
  cases a <;> cases b <;> first
    | exact hclash.elim
    | exact Ne.symm hclash

theorem Avoids.symm (havoids : Avoids heap MapsClash depth a b) :
    Avoids heap MapsClash depth b a := by
  induction depth generalizing a b with
  | zero => trivial
  | succ depth ih =>
      refine ⟨fun hclash => havoids.1 hclash.symm, ?_⟩
      split
      next o p =>
        intro hne arr rhs harr hrhs
        exact AvoidsUpTo.symm (fun l r => ih) (havoids.2 (Ne.symm hne) rhs arr hrhs harr)
      next => trivial

theorem SignOf.sign_eq_neg {x y : Content} {s t : Int} (hs : SignOf s x y) (ht : SignOf t y x) :
    s.sign = -t.sign := by
  rcases lt_trichotomy s 0 with hneg | rfl | hpos
  · have htpos : 0 < t := ht.2.2 (hs.1.1 hneg)
    rw [Int.sign_eq_neg_one_of_neg hneg, Int.sign_eq_one_of_pos htpos]
  · have hnneg : ¬ t < 0 := fun h => lt_irrefl _ (hs.2.2 (ht.1.1 h))
    have hnpos : ¬ 0 < t := fun h => lt_irrefl _ (hs.1.2 (ht.2.1 h))
    rw [show t = 0 by omega]
    rfl
  · have htneg : t < 0 := ht.1.2 (hs.2.1 hpos)
    rw [Int.sign_eq_one_of_pos hpos, Int.sign_eq_neg_one_of_neg htneg]
    rfl

theorem SignOf.le_iff {x y : Content} {s : Int} (hs : SignOf s x y) : s ≤ 0 ↔ x ≤ y := by
  rw [← not_lt, hs.2, not_lt]

theorem SignOf.eq_zero_iff {x y : Content} {s : Int} (hs : SignOf s x y) : s = 0 ↔ x = y := by
  have hnonneg : 0 ≤ s ↔ y ≤ x := by rw [← not_lt, hs.1, not_lt]
  rw [le_antisymm_iff, hs.le_iff, hnonneg, le_antisymm_iff]

/-- On values of a graph without cycles whose first differences are not between
maps, `compare` is a total order; it is equality but for lite pointers. -/
theorem compare_orders_values (hgraph : DataGraph heap)
    (hcycle : ¬ ∃ v, Relation.TransGen (Element heap) v v) (ha : IsDatum heap a)
    (hb : IsDatum heap b) (hc : IsDatum heap c)
    (hab : InDepth fun depth => Avoids heap MapsClash depth a b)
    (hbc : InDepth fun depth => Avoids heap MapsClash depth b c)
    (hac : InDepth fun depth => Avoids heap MapsClash depth a c) :
    InDepth fun depth => ∃ ab ba bc ac eq, (valueOps heap depth).compare a b = .ok ab ∧
      (valueOps heap depth).compare b a = .ok ba ∧ (valueOps heap depth).compare b c = .ok bc ∧
      (valueOps heap depth).compare a c = .ok ac ∧ (valueOps heap depth).equals a b = .ok eq ∧
      ab.sign = -ba.sign ∧ (ab ≤ 0 → bc ≤ 0 → ac ≤ 0) ∧ (eq = true → ab = 0) ∧
      (Avoids heap PointersClash depth a b → ab = 0 → eq = true) := by
  obtain ⟨na, hlowa⟩ := exists_low hcycle a
  obtain ⟨nb, hlowb⟩ := exists_low hcycle b
  obtain ⟨nc, hlowc⟩ := exists_low hcycle c
  obtain ⟨nab, hab⟩ := hab
  obtain ⟨nbc, hbc⟩ := hbc
  obtain ⟨nac, hac⟩ := hac
  refine ⟨na + nb + nc + nab + nbc + nac + 1, fun depth hdepth => ?_⟩
  cases depth with
  | zero => omega
  | succ n =>
      have hlowa : Low heap n a := hlowa.mono (by omega)
      have hlowb : Low heap n b := hlowb.mono (by omega)
      have hlowc : Low heap n c := hlowc.mono (by omega)
      have hab := hab (n + 1) (by omega)
      obtain ⟨_, ⟨eq, heq⟩, ab, hcab⟩ := hlowa.returns hgraph hlowb ha hb
      obtain ⟨_, _, ba, hcba⟩ := hlowb.returns hgraph hlowa hb ha
      obtain ⟨_, _, bc, hcbc⟩ := hlowb.returns hgraph hlowc hb hc
      obtain ⟨_, _, ac, hcac⟩ := hlowa.returns hgraph hlowc ha hc
      have hsab := compare_form hcab hab
      have hsba := compare_form hcba hab.symm
      have hsbc := compare_form hcbc (hbc (n + 1) (by omega))
      have hsac := compare_form hcac (hac (n + 1) (by omega))
      refine ⟨ab, ba, bc, ac, eq, hcab, hcba, hcbc, hcac, heq, hsab.sign_eq_neg hsba, ?_, ?_, ?_⟩
      · rw [hsab.le_iff, hsbc.le_iff, hsac.le_iff]
        exact le_trans
      · rintro rfl
        exact hsab.eq_zero_iff.2 (form_eq_of_equals heq hab)
      · intro hpointers hzero
        exact equals_of_form heq hab hpointers (hsab.eq_zero_iff.1 hzero)

end

/-- The arrays `[1, "a"]` and `[1, "b"]`. -/
def twoPairs : Heap :=
  ((Heap.empty.alloc (.dyay [.int 1, .kstr [97]])).1.alloc (.dyay [.int 1, .kstr [98]])).1

theorem compare_orders_pairs : InDepth fun depth => ∃ ab ba bc ac eq,
    (valueOps twoPairs depth).compare (.int 9) (.dyay 0) = .ok ab ∧
      (valueOps twoPairs depth).compare (.dyay 0) (.int 9) = .ok ba ∧
      (valueOps twoPairs depth).compare (.dyay 0) (.dyay 1) = .ok bc ∧
      (valueOps twoPairs depth).compare (.int 9) (.dyay 1) = .ok ac ∧
      (valueOps twoPairs depth).equals (.int 9) (.dyay 0) = .ok eq ∧
      ab.sign = -ba.sign ∧ (ab ≤ 0 → bc ≤ 0 → ac ≤ 0) ∧ (eq = true → ab = 0) ∧
      (Avoids twoPairs PointersClash depth (.int 9) (.dyay 0) → ab = 0 → eq = true) := by
  obtain ⟨hgraph, hcycle⟩ := arrays_of_earlier twoPairs fun o obj hobj => by
    match o with
    | 0 =>
        cases hobj
        exact ⟨_, rfl, by simp [Variable.IsScalarKey]⟩
    | 1 =>
        cases hobj
        exact ⟨_, rfl, by simp [Variable.IsScalarKey]⟩
    | n + 2 => cases hobj
  have hscalars : ∀ depth, Avoids twoPairs MapsClash depth (.int 1) (.int 1) ∧
      Avoids twoPairs MapsClash depth (.kstr [97]) (.kstr [98]) := by
    intro depth
    cases depth with
    | zero => exact ⟨trivial, trivial⟩
    | succ depth => exact ⟨⟨id, trivial⟩, id, trivial⟩
  have harrays : InDepth fun depth => Avoids twoPairs MapsClash depth (.dyay 0) (.dyay 1) := by
    refine ⟨0, fun depth _ => ?_⟩
    cases depth with
    | zero => trivial
    | succ depth =>
        refine ⟨id, fun _ arr rhs harr hrhs => ?_⟩
        cases harr
        cases hrhs
        exact ⟨(hscalars depth).1, fun _ => ⟨(hscalars depth).2, fun _ => trivial⟩⟩
  have hmixed : ∀ o, InDepth fun depth => Avoids twoPairs MapsClash depth (.int 9) (.dyay o) := by
    refine fun o => ⟨0, fun depth _ => ?_⟩
    cases depth with
    | zero => trivial
    | succ depth => exact ⟨id, trivial⟩
  exact compare_orders_values hgraph hcycle trivial ⟨_, rfl⟩ ⟨_, rfl⟩ (hmixed 0) harrays (hmixed 1)

/-- `{}` and a map with one entry. -/
def emptyAndOne : Heap :=
  ((Heap.empty.alloc (.hmap (filled []))).1.alloc (.hmap (filled [(.int 1, .int 10)]))).1

/-- Lite pointers compare as equal, and an empty map compares as equal with one
that has an entry, but not the other way round. -/
theorem compare_no_total_order :
    ((valueOps Heap.empty 1).compare (.ext 0) (.ext 8)).toOption = some 0 ∧
      ((valueOps Heap.empty 1).equals (.ext 0) (.ext 8)).toOption = some false ∧
      ((valueOps emptyAndOne 2).compare (.hmap 0) (.hmap 1)).toOption = some 0 ∧
      ((valueOps emptyAndOne 2).compare (.hmap 1) (.hmap 0)).toOption = some 1 := by
  decide +kernel

end Ymd
