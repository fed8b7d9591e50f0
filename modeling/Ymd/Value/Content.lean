import Ymd.Foundation.PrefixCode
import Ymd.Value.Compare
import Mathlib.Order.Lattice

/-! # The content of a key

What `compare` and `equals` see of an integer, a boolean, a string or an array
of these. Contents are ordered by a prefix code that puts type tags in front
and ends strings and arrays with a mark below everything in them.
-/

namespace Ymd

open Foundation

inductive Content
  | int (i : YmdInt)
  | bool (i : YmdInt)
  | kstr (z : Bytes)
  | dyay (elem : List Content)

namespace Content

mutual

/-- The word of a content. -/
def code : Content → List Int
  | int i => [1, i.toInt]
  | bool i => [2, i.toInt]
  | kstr z => 4 :: (z.map (fun c => (c.toNat : Int) + 1) ++ [0])
  | dyay elem => 6 :: (codes elem ++ [0])

/-- The words of several contents, one after the other. -/
def codes : List Content → List Int
  | [] => []
  | c :: cs => code c ++ codes cs

end

theorem code_head_pos (c : Content) : ∃ tag rest, code c = tag :: rest ∧ 0 < tag := by
  cases c <;> exact ⟨_, _, rfl, by decide⟩

/-- The bytes of a string are read back up to the mark. -/
theorem bytes_inj {z z' : Bytes} {s t : List Int}
    (heq : z.map (fun c => (c.toNat : Int) + 1) ++ 0 :: s =
      z'.map (fun c => (c.toNat : Int) + 1) ++ 0 :: t) : z = z' ∧ s = t := by
  induction z generalizing z' with
  | nil =>
      cases z' with
      | nil => simpa using heq
      | cons c z' =>
          simp only [List.map_nil, List.nil_append, List.map_cons, List.cons_append,
            List.cons.injEq] at heq
          omega
  | cons c z ih =>
      cases z' with
      | nil =>
          simp only [List.map_nil, List.nil_append, List.map_cons, List.cons_append,
            List.cons.injEq] at heq
          omega
      | cons c' z' =>
          simp only [List.map_cons, List.cons_append, List.cons.injEq] at heq
          obtain ⟨hz, hs⟩ := ih heq.2
          have hc : c = c' := UInt8.toNat_inj.mp (by omega)
          exact ⟨by rw [hc, hz], hs⟩

mutual

theorem code_append_inj (a b : Content) (s t : List Int) (heq : code a ++ s = code b ++ t) :
    a = b ∧ s = t := by
  cases a with
  | int i =>
      cases b <;> simp [code] at heq
      exact ⟨by rw [BitVec.eq_of_toInt_eq heq.1], heq.2⟩
  | bool i =>
      cases b <;> simp [code] at heq
      exact ⟨by rw [BitVec.eq_of_toInt_eq heq.1], heq.2⟩
  | kstr z =>
      cases b <;> simp [code] at heq
      obtain ⟨hz, hs⟩ := bytes_inj heq
      exact ⟨by rw [hz], hs⟩
  | dyay elem =>
      cases b <;> simp [code] at heq
      obtain ⟨helem, hs⟩ := codes_append_inj elem _ s t heq
      exact ⟨by rw [helem], hs⟩

theorem codes_append_inj (as bs : List Content) (s t : List Int)
    (heq : codes as ++ 0 :: s = codes bs ++ 0 :: t) : as = bs ∧ s = t := by
  cases as with
  | nil =>
      cases bs with
      | nil => simpa [codes] using heq
      | cons b bs =>
          obtain ⟨tag, rest, hb, htag⟩ := code_head_pos b
          simp [codes, hb] at heq
          omega
  | cons a as =>
      cases bs with
      | nil =>
          obtain ⟨tag, rest, ha, htag⟩ := code_head_pos a
          simp [codes, ha] at heq
          omega
      | cons b bs =>
          simp only [codes, List.append_assoc] at heq
          obtain ⟨hab, hrest⟩ := code_append_inj a b _ _ heq
          obtain ⟨habs, hs⟩ := codes_append_inj as bs s t hrest
          exact ⟨by rw [hab, habs], hs⟩

end

theorem prefixFree_code : PrefixFree code := fun a b s t heq => (code_append_inj a b s t heq).1

instance : LinearOrder Content := LinearOrder.lift' code prefixFree_code.injective

theorem lt_iff {a b : Content} : a < b ↔ code a < code b := Iff.rfl

theorem int_lt {i j : YmdInt} : int i < int j ↔ i.toInt < j.toInt := by
  simp [lt_iff, code, List.cons_lt_cons_iff]

theorem bool_lt {i j : YmdInt} : bool i < bool j ↔ i.toInt < j.toInt := by
  simp [lt_iff, code, List.cons_lt_cons_iff]

/-! ## Arrays are ordered by the first difference -/

theorem dyay_lt {as bs : List Content} :
    dyay as < dyay bs ↔ codes as ++ [0] < codes bs ++ [0] := by
  simp [lt_iff, code]

theorem dyay_nil_lt (b : Content) (bs : List Content) : dyay [] < dyay (b :: bs) := by
  obtain ⟨tag, rest, hb, htag⟩ := code_head_pos b
  simp [dyay_lt, codes, hb, List.cons_lt_cons_iff, htag]

theorem dyay_cons_lt {a b : Content} {as bs : List Content} :
    dyay (a :: as) < dyay (b :: bs) ↔ a < b ∨ a = b ∧ dyay as < dyay bs := by
  simp only [dyay_lt, codes, List.append_assoc]
  rcases lt_trichotomy a b with hab | rfl | hab
  · exact iff_of_true (prefixFree_code.append_lt_append hab _ _) (.inl hab)
  · simp [append_lt_append_left_iff]
  · have hwords := prefixFree_code.append_lt_append hab (codes bs ++ [0]) (codes as ++ [0])
    apply iff_of_false (lt_asymm hwords)
    rintro (hlt | ⟨rfl, _⟩)
    · exact lt_asymm hab hlt
    · exact lt_irrefl _ hab

/-- Contents of different types are ordered by their tags. -/
def tag : Content → Nat
  | int _ => 1
  | bool _ => 2
  | kstr _ => 4
  | dyay _ => 6

theorem lt_of_tag_lt {a b : Content} (htag : a.tag < b.tag) : a < b := by
  rw [lt_iff]
  cases a <;> cases b <;> simp [tag] at htag <;> simp [code, List.cons_lt_cons_iff]

/-- `kz_compare` is the order of strings. -/
theorem kzCompare_sign (z z' : Bytes) :
    (kzCompare z z' < 0 ↔ kstr z < kstr z') ∧ (0 < kzCompare z z' ↔ kstr z' < kstr z) := by
  have hcode : ∀ u v : Bytes, kstr u < kstr v ↔
      u.map (fun c => (c.toNat : Int) + 1) ++ [0] < v.map (fun c => (c.toNat : Int) + 1) ++ [0] := by
    intro u v
    simp [lt_iff, code]
  rw [hcode, hcode]
  induction z generalizing z' with
  | nil =>
      cases z' with
      | nil => simp [kzCompare]
      | cons c z' =>
          have hpos : (0 : Int) < (c.toNat : Int) + 1 := by omega
          have hneg : ¬ (c.toNat : Int) + 1 < 0 := by omega
          simp [kzCompare, List.cons_lt_cons_iff, hpos, hneg, hpos.ne']
  | cons c z ih =>
      cases z' with
      | nil =>
          have hpos : (0 : Int) < (c.toNat : Int) + 1 := by omega
          have hneg : ¬ (c.toNat : Int) + 1 < 0 := by omega
          simp [kzCompare, List.cons_lt_cons_iff, hpos, hneg, hpos.ne]
      | cons c' z' =>
          have hlt : ∀ u v : UInt8, (u.toNat : Int) + 1 < (v.toNat : Int) + 1 ↔ u < v := by
            intro u v
            rw [UInt8.lt_iff_toNat_lt]
            omega
          have heq : ∀ u v : UInt8, (u.toNat : Int) + 1 = (v.toNat : Int) + 1 ↔ u = v := by
            intro u v
            rw [← UInt8.toNat_inj]
            omega
          simp only [kzCompare, List.map_cons, List.cons_append, List.cons_lt_cons_iff, hlt, heq]
          obtain hc | hc | hc := lt_trichotomy c.toNat c'.toNat
          · have hlt : c < c' := UInt8.lt_iff_toNat_lt.mpr hc
            have hnot : ¬ c' < c := fun h => lt_asymm hc (UInt8.lt_iff_toNat_lt.mp h)
            have hne : ¬ c' = c := fun h => hc.ne (by rw [h])
            simp [hlt, hnot, hne]
          · obtain rfl := UInt8.toNat_inj.mp hc
            simpa using ih z'
          · have hlt : c' < c := UInt8.lt_iff_toNat_lt.mpr hc
            have hnot : ¬ c < c' := fun h => lt_asymm hc (UInt8.lt_iff_toNat_lt.mp h)
            have hne : ¬ c = c' := fun h => hc.ne (by rw [h])
            simp [hlt, hnot, hne]

end Content

end Ymd
