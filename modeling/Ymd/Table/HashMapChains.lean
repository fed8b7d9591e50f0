import Ymd.Foundation.Chain
import Ymd.Table.HashMap

/-! # The collision chains of the hash map

Every entry lies on the chain headed by its own home slot, and a head is never
a node of another chain. The three ways `hindex` adds an entry keep this:
filling a free home slot, appending to the home slot's chain, and moving a
foreign node out of the home slot.
-/

namespace Ymd.Hmap

open Foundation

/-- The keys the map is used with: the key operations accept them, and equal
keys are identical. -/
structure LawfulKeys (ops : KeyOps) (IsKey : Variable → Prop)
    (hashOf : Variable → BitVec 64) : Prop where
  notNil : ∀ {k}, IsKey k → k.isNil = false
  hash : ∀ {k}, IsKey k → ops.hash k = pure (hashOf k)
  equals : ∀ {a b}, IsKey a → IsKey b → ops.equals a b = pure (decide (a = b))

section

variable {IsKey : Variable → Prop} {hashOf : Variable → BitVec 64} {shift : Nat}

/-- The home slot of the entry in slot `i`. -/
def home (hashOf : Variable → BitVec 64) (item : Items shift) (i : Fin (2 ^ shift)) :
    Fin (2 ^ shift) :=
  position shift (hashOf (item i).k)

/-- The successor function of a table. -/
def nextOf (item : Items shift) (i : Fin (2 ^ shift)) : Option (Fin (2 ^ shift)) := (item i).next

/-- Some entry holds `v` under `k`. -/
def Holds (item : Items shift) (k v : Variable) : Prop :=
  ∃ i, (item i).flag ≠ .free ∧ (item i).k = k ∧ (item i).v = v

/-- The key has no entry. -/
def Absent (item : Items shift) (k : Variable) : Prop := ∀ i, (item i).flag ≠ .free → (item i).k ≠ k

/-- The slots of a table form chains, each headed by the home slot of its entries. -/
structure Linked (IsKey : Variable → Prop) (hashOf : Variable → BitVec 64)
    (item : Items shift) : Prop where
  blank : ∀ i, (item i).flag = .free → (item i).next = none
  key : ∀ i, (item i).flag ≠ .free → IsKey (item i).k
  hash : ∀ i, (item i).flag ≠ .free → (item i).hash = hashOf (item i).k
  inj : ∀ i j, (item i).flag ≠ .free → (item j).flag ≠ .free → (item i).k = (item j).k → i = j
  homed : ∀ i, (item i).flag ≠ .free → (item (home hashOf item i)).flag = .slot
  heads : ∀ p, (item p).flag = .slot → ∃ cells, Chain (nextOf item) (some p) cells ∧
    ∀ i, i ∈ cells ↔ (item i).flag ≠ .free ∧ home hashOf item i = p

theorem Linked.zero : Linked IsKey hashOf (fun _ => Kvi.zero : Items shift) where
  blank := fun _ _ => rfl
  key := fun _ hflag => absurd rfl hflag
  hash := fun _ hflag => absurd rfl hflag
  inj := fun _ _ hflag => absurd rfl hflag
  homed := fun _ hflag => absurd rfl hflag
  heads := fun _ hflag => nomatch hflag

variable {item item' : Items shift} {key : Variable}

/-- A node lies behind the head of its chain. -/
theorem Linked.home_ne_of_node (hlinked : Linked IsKey hashOf item) {i : Fin (2 ^ shift)}
    (hflag : (item i).flag = .node) : home hashOf item i ≠ i := by
  intro heq
  have hslot := hlinked.homed i (by rw [hflag]; decide)
  rw [heq, hflag] at hslot
  exact absurd hslot (by decide)

/-- Storing a value changes no chain. -/
theorem Linked.store (hlinked : Linked IsKey hashOf item) {slot : Fin (2 ^ shift)} {v : Variable}
    (hused : (item slot).flag ≠ .free) :
    Linked IsKey hashOf (Function.update item slot { item slot with v := v }) := by
  have hnext : nextOf (Function.update item slot { item slot with v := v }) = nextOf item := by
    funext i
    by_cases hi : i = slot <;> simp [nextOf, hi]
  have hflag : ∀ i, (Function.update item slot { item slot with v := v } i).flag
      = (item i).flag := by
    intro i
    by_cases hi : i = slot <;> simp [hi]
  have hk : ∀ i, (Function.update item slot { item slot with v := v } i).k = (item i).k := by
    intro i
    by_cases hi : i = slot <;> simp [hi]
  have hhash : ∀ i, (Function.update item slot { item slot with v := v } i).hash
      = (item i).hash := by
    intro i
    by_cases hi : i = slot <;> simp [hi]
  have hhome : home hashOf (Function.update item slot { item slot with v := v })
      = home hashOf item := by
    funext i
    simp only [home, hk]
  refine ⟨?_, ?_, ?_, ?_, ?_, ?_⟩
  · intro i hi
    rw [hflag] at hi
    have hne : i ≠ slot := by
      rintro rfl
      exact hused hi
    rw [Function.update_of_ne hne]
    exact hlinked.blank i hi
  · simpa only [hflag, hk] using hlinked.key
  · simpa only [hflag, hk, hhash] using hlinked.hash
  · simpa only [hflag, hk] using hlinked.inj
  · simpa only [hflag, hhome] using hlinked.homed
  · simpa only [hflag, hhome, hnext] using hlinked.heads

/-- `hindex` on a free home slot: the new entry is a chain of its own. -/
theorem Linked.fillHome (hlinked : Linked IsKey hashOf item) (hkey : IsKey key)
    (habsent : Absent item key) {p : Fin (2 ^ shift)} (hp : position shift (hashOf key) = p)
    (hfree : (item p).flag = .free)
    (hnew : item' p = { item p with flag := .slot, hash := hashOf key, k := key })
    (hframe : ∀ i, i ≠ p → item' i = item i) : Linked IsKey hashOf item' := by
  have hnext : (item' p).next = none := by rw [hnew]; exact hlinked.blank p hfree
  have hpk : (item' p).k = key := by rw [hnew]
  have hpflag : (item' p).flag = .slot := by rw [hnew]
  have hphome : home hashOf item' p = p := by rw [home, hpk, hp]
  have hhome : ∀ i, i ≠ p → home hashOf item' i = home hashOf item i := by
    intro i hi
    rw [home, home, hframe i hi]
  -- no old entry has the free slot as its home
  have hforeign : ∀ i, (item i).flag ≠ .free → home hashOf item i ≠ p := by
    intro i hi heq
    have hslot := hlinked.homed i hi
    rw [heq, hfree] at hslot
    exact absurd hslot (by decide)
  refine ⟨?_, ?_, ?_, ?_, ?_, ?_⟩
  · intro i hi
    by_cases heq : i = p
    · rw [heq, hpflag] at hi
      exact absurd hi (by decide)
    · rw [hframe i heq] at hi ⊢
      exact hlinked.blank i hi
  · intro i hi
    by_cases heq : i = p
    · rwa [heq, hpk]
    · rw [hframe i heq] at hi ⊢
      exact hlinked.key i hi
  · intro i hi
    by_cases heq : i = p
    · rw [heq, hpk, hnew]
    · rw [hframe i heq] at hi ⊢
      exact hlinked.hash i hi
  · intro i j hi hj hk
    by_cases hip : i = p <;> by_cases hjp : j = p
    · rw [hip, hjp]
    · rw [hip, hpk, hframe j hjp] at hk
      rw [hframe j hjp] at hj
      exact absurd hk.symm (habsent j hj)
    · rw [hjp, hpk, hframe i hip] at hk
      rw [hframe i hip] at hi
      exact absurd hk (habsent i hi)
    · rw [hframe i hip, hframe j hjp] at hk
      rw [hframe i hip] at hi
      rw [hframe j hjp] at hj
      exact hlinked.inj i j hi hj hk
  · intro i hi
    by_cases heq : i = p
    · rw [heq, hphome, hpflag]
    · rw [hframe i heq] at hi
      rw [hhome i heq, hframe _ (hforeign i hi)]
      exact hlinked.homed i hi
  · intro q hq
    by_cases heq : q = p
    · subst heq
      refine ⟨[q], ⟨rfl, hnext⟩, ?_⟩
      intro i
      rw [List.mem_singleton]
      constructor
      · rintro rfl
        exact ⟨by rw [hpflag]; decide, hphome⟩
      · rintro ⟨hi, hihome⟩
        by_contra hne
        rw [hframe i hne] at hi
        rw [hhome i hne] at hihome
        exact hforeign i hi hihome
    · rw [hframe q heq] at hq
      obtain ⟨cells, hchain, hmem⟩ := hlinked.heads q hq
      have hpcells : p ∉ cells := fun hp => ((hmem p).mp hp).1 hfree
      refine ⟨cells, hchain.congr ?_, ?_⟩
      · intro i hi
        rw [nextOf, nextOf, hframe i (fun h => hpcells (h ▸ hi))]
      · intro i
        by_cases hip : i = p
        · subst hip
          simp only [hpcells, hphome, false_iff, not_and]
          exact fun _ h => heq h.symm
        · rw [hmem, hframe i hip, hhome i hip]

/-- `index_if_head` on an absent key: the new node is linked behind the last
cell of the chain. -/
theorem Linked.appendNode (hlinked : Linked IsKey hashOf item) (hkey : IsKey key)
    (habsent : Absent item key) {p pos fnd : Fin (2 ^ shift)} {cells : List (Fin (2 ^ shift))}
    (hp : position shift (hashOf key) = p) (hhead : (item p).flag = .slot)
    (hchain : Chain (nextOf item) (some p) (cells ++ [pos]))
    (hfree : (item fnd).flag = .free)
    (hnew : item' fnd = { item fnd with hash := hashOf key, flag := .node, k := key, next := none })
    (hpos : item' pos = { item pos with next := some fnd })
    (hframe : ∀ i, i ≠ fnd → i ≠ pos → item' i = item i) : Linked IsKey hashOf item' := by
  obtain ⟨cells', hchain', hmem⟩ := hlinked.heads p hhead
  obtain rfl : cells' = cells ++ [pos] := hchain'.unique hchain
  have hposUsed : (item pos).flag ≠ .free ∧ home hashOf item pos = p := (hmem pos).mp (by simp)
  have hne : fnd ≠ pos := fun heq => hposUsed.1 (heq ▸ hfree)
  have hflag : ∀ i, i ≠ fnd → (item' i).flag = (item i).flag := by
    intro i hi
    by_cases hip : i = pos
    · rw [hip, hpos]
    · rw [hframe i hi hip]
  have hk : ∀ i, i ≠ fnd → (item' i).k = (item i).k := by
    intro i hi
    by_cases hip : i = pos
    · rw [hip, hpos]
    · rw [hframe i hi hip]
  have hhome : ∀ i, i ≠ fnd → home hashOf item' i = home hashOf item i := by
    intro i hi
    rw [home, home, hk i hi]
  have hfndFlag : (item' fnd).flag = .node := by rw [hnew]
  have hfndKey : (item' fnd).k = key := by rw [hnew]
  have hfndHome : home hashOf item' fnd = p := by rw [home, hfndKey, hp]
  -- a used slot of the old table is not the new node
  have hold : ∀ i, (item i).flag ≠ .free → i ≠ fnd := fun i hi heq => hi (heq ▸ hfree)
  have hpne : p ≠ fnd := hold p (by rw [hhead]; decide)
  refine ⟨?_, ?_, ?_, ?_, ?_, ?_⟩
  · intro i hi
    have hifnd : i ≠ fnd := by
      rintro rfl
      rw [hfndFlag] at hi
      exact absurd hi (by decide)
    rw [hflag i hifnd] at hi
    rw [hframe i hifnd (fun heq => hposUsed.1 (heq ▸ hi))]
    exact hlinked.blank i hi
  · intro i hi
    by_cases heq : i = fnd
    · rwa [heq, hfndKey]
    · rw [hflag i heq] at hi
      rw [hk i heq]
      exact hlinked.key i hi
  · intro i hi
    by_cases heq : i = fnd
    · rw [heq, hfndKey, hnew]
    · rw [hflag i heq] at hi
      rw [hk i heq, ← hlinked.hash i hi]
      by_cases hip : i = pos
      · rw [hip, hpos]
      · rw [hframe i heq hip]
  · intro i j hi hj hkk
    by_cases hif : i = fnd <;> by_cases hjf : j = fnd
    · rw [hif, hjf]
    · rw [hif, hfndKey, hk j hjf] at hkk
      rw [hflag j hjf] at hj
      exact absurd hkk.symm (habsent j hj)
    · rw [hjf, hfndKey, hk i hif] at hkk
      rw [hflag i hif] at hi
      exact absurd hkk (habsent i hi)
    · rw [hk i hif, hk j hjf] at hkk
      rw [hflag i hif] at hi
      rw [hflag j hjf] at hj
      exact hlinked.inj i j hi hj hkk
  · intro i hi
    by_cases heq : i = fnd
    · rw [heq, hfndHome, hflag p hpne, hhead]
    · rw [hflag i heq] at hi
      have hslot := hlinked.homed i hi
      rw [hhome i heq, hflag _ (hold _ (by rw [hslot]; decide)), hslot]
  · intro q hq
    have hqfnd : q ≠ fnd := by
      rintro rfl
      rw [hfndFlag] at hq
      exact absurd hq (by decide)
    rw [hflag q hqfnd] at hq
    by_cases hqp : q = p
    · subst hqp
      refine ⟨cells ++ pos :: fnd :: [], ?_, ?_⟩
      · refine hchain.insert_after (fun hin => ((hmem fnd).mp hin).1 hfree) ?_ ?_ ?_
        · rw [nextOf, hpos]
        · have hlast : nextOf item pos = none := hchain.tail_of_append
          rw [hlast, nextOf, hnew]
        · intro c hcpos hcfnd
          rw [nextOf, nextOf, hframe c hcfnd hcpos]
      · intro i
        by_cases hif : i = fnd
        · subst hif
          simp only [List.mem_append, List.mem_cons, true_or, or_true, true_iff]
          exact ⟨by rw [hfndFlag]; decide, hfndHome⟩
        · rw [hflag i hif, hhome i hif, ← hmem i]
          simp [hif]
    · obtain ⟨others, hothers, homem⟩ := hlinked.heads q hq
      refine ⟨others, hothers.congr ?_, ?_⟩
      · intro i hi
        have hiUsed := (homem i).mp hi
        rw [nextOf, nextOf, hframe i (hold i hiUsed.1) ?_]
        rintro rfl
        exact hqp (hiUsed.2.symm.trans hposUsed.2)
      · intro i
        by_cases hif : i = fnd
        · subst hif
          constructor
          · exact fun hin => absurd hfree ((homem i).mp hin).1
          · exact fun hin => absurd (hin.2.symm.trans hfndHome) hqp
        · rw [homem, hflag i hif, hhome i hif]

/-- The first half of `index_if_node`: a node is copied to a free slot and
linked there, which leaves its old slot free. -/
theorem Linked.moveNode (hlinked : Linked IsKey hashOf item) {slot prev fnd : Fin (2 ^ shift)}
    {before after : List (Fin (2 ^ shift))} (hnode : (item slot).flag = .node)
    (hchain : Chain (nextOf item) (some (home hashOf item slot)) (before ++ prev :: slot :: after))
    (hfree : (item fnd).flag = .free)
    (hnew : item' fnd = { item slot with flag := .node })
    (hprev : item' prev = { item prev with next := some fnd })
    (hslot : item' slot = { item slot with flag := .free, next := none })
    (hframe : ∀ i, i ≠ fnd → i ≠ prev → i ≠ slot → item' i = item i) :
    Linked IsKey hashOf item' := by
  have hslotUsed : (item slot).flag ≠ .free := by rw [hnode]; decide
  obtain ⟨cells, hcells, hmem⟩ := hlinked.heads _ (hlinked.homed slot hslotUsed)
  obtain rfl : cells = before ++ prev :: slot :: after := hcells.unique hchain
  have hprevUsed := (hmem prev).mp (by simp)
  have hold : ∀ i, (item i).flag ≠ .free → i ≠ fnd := fun i hi heq => hi (heq ▸ hfree)
  have hsf : slot ≠ fnd := hold slot hslotUsed
  have hps : prev ≠ slot := by
    rintro rfl
    have hnodup := (List.nodup_append.mp hchain.nodup).2.1
    simp at hnodup
  have hslotFlag : (item' slot).flag = .free := by rw [hslot]
  have hfndFlag : (item' fnd).flag = .node := by rw [hnew]
  have hfndKey : (item' fnd).k = (item slot).k := by rw [hnew]
  have hfndHome : home hashOf item' fnd = home hashOf item slot := by rw [home, home, hfndKey]
  have hflag : ∀ i, i ≠ fnd → i ≠ slot → (item' i).flag = (item i).flag := by
    intro i hif his
    by_cases hip : i = prev
    · rw [hip, hprev]
    · rw [hframe i hif hip his]
  have hk : ∀ i, i ≠ fnd → (item' i).k = (item i).k := by
    intro i hif
    by_cases his : i = slot
    · rw [his, hslot]
    · by_cases hip : i = prev
      · rw [hip, hprev]
      · rw [hframe i hif hip his]
  have hhome : ∀ i, i ≠ fnd → home hashOf item' i = home hashOf item i := by
    intro i hif
    rw [home, home, hk i hif]
  have hhash : ∀ i, i ≠ fnd → i ≠ slot → (item' i).hash = (item i).hash := by
    intro i hif his
    by_cases hip : i = prev
    · rw [hip, hprev]
    · rw [hframe i hif hip his]
  -- a used slot of the new table is the copy, or a used slot of the old one
  have hused : ∀ i, (item' i).flag ≠ .free → i = fnd ∨
      (i ≠ fnd ∧ i ≠ slot ∧ (item i).flag ≠ .free) := by
    intro i hi
    by_cases hif : i = fnd
    · exact Or.inl hif
    · have his : i ≠ slot := by
        rintro rfl
        exact hi hslotFlag
      exact Or.inr ⟨hif, his, hflag i hif his ▸ hi⟩
  refine ⟨?_, ?_, ?_, ?_, ?_, ?_⟩
  · intro i hi
    by_cases his : i = slot
    · rw [his, hslot]
    · have hif : i ≠ fnd := by
        rintro rfl
        rw [hfndFlag] at hi
        exact absurd hi (by decide)
      rw [hflag i hif his] at hi
      have hip : i ≠ prev := by
        rintro rfl
        exact hprevUsed.1 hi
      rw [hframe i hif hip his]
      exact hlinked.blank i hi
  · intro i hi
    obtain rfl | ⟨hif, _, hi⟩ := hused i hi
    · rw [hfndKey]
      exact hlinked.key slot hslotUsed
    · rw [hk i hif]
      exact hlinked.key i hi
  · intro i hi
    obtain rfl | ⟨hif, his, hi⟩ := hused i hi
    · rw [hnew]
      exact hlinked.hash slot hslotUsed
    · rw [hk i hif, hhash i hif his]
      exact hlinked.hash i hi
  · intro i j hi hj hkk
    obtain rfl | ⟨hif, his, hi⟩ := hused i hi <;> obtain rfl | ⟨hjf, hjs, hj⟩ := hused j hj
    · rfl
    · rw [hfndKey, hk j hjf] at hkk
      exact absurd (hlinked.inj slot j hslotUsed hj hkk).symm hjs
    · rw [hfndKey, hk i hif] at hkk
      exact absurd (hlinked.inj i slot hi hslotUsed hkk) his
    · rw [hk i hif, hk j hjf] at hkk
      exact hlinked.inj i j hi hj hkk
  · have hheadKept : ∀ q, (item q).flag = .slot → (item' q).flag = .slot := by
      intro q hq
      have hqs : q ≠ slot := by
        rintro rfl
        rw [hnode] at hq
        exact absurd hq (by decide)
      rw [hflag q (hold q (by rw [hq]; decide)) hqs, hq]
    intro i hi
    obtain rfl | ⟨hif, _, hi⟩ := hused i hi
    · rw [hfndHome]
      exact hheadKept _ (hlinked.homed slot hslotUsed)
    · rw [hhome i hif]
      exact hheadKept _ (hlinked.homed i hi)
  · intro q hq
    have hqf : q ≠ fnd := by
      rintro rfl
      rw [hfndFlag] at hq
      exact absurd hq (by decide)
    have hqs : q ≠ slot := by
      rintro rfl
      rw [hslotFlag] at hq
      exact absurd hq (by decide)
    rw [hflag q hqf hqs] at hq
    by_cases hqhome : q = home hashOf item slot
    · subst hqhome
      refine ⟨before ++ prev :: fnd :: after, ?_, ?_⟩
      · refine hchain.replace_after (fun hin => ((hmem fnd).mp hin).1 hfree) ?_ ?_ ?_
        · rw [nextOf, hprev]
        · rw [nextOf, nextOf, hnew]
        · intro c hcp hcs hcf
          rw [nextOf, nextOf, hframe c hcf hcp hcs]
      · intro i
        by_cases hif : i = fnd
        · subst hif
          simp only [List.mem_append, List.mem_cons, true_or, or_true, true_iff]
          exact ⟨by rw [hfndFlag]; decide, hfndHome⟩
        · by_cases his : i = slot
          · subst his
            have hnodup := List.nodup_append.mp hchain.nodup
            have hnotBefore : i ∉ before := fun hin =>
              hnodup.2.2 i hin i (List.mem_cons_of_mem _ List.mem_cons_self) rfl
            have hnotAfter : i ∉ after :=
              (List.nodup_cons.mp (List.nodup_cons.mp hnodup.2.1).2).1
            simp [hslotFlag, hnotBefore, hnotAfter, hif, hps.symm]
          · rw [hflag i hif his, hhome i hif, ← hmem i]
            simp [hif, his]
    · obtain ⟨others, hothers, homem⟩ := hlinked.heads q hq
      have hprevOut : prev ∉ others := fun hin =>
        hqhome (((homem prev).mp hin).2.symm.trans hprevUsed.2)
      have hslotOut : slot ∉ others := fun hin => hqhome ((homem slot).mp hin).2.symm
      have hfndOut : fnd ∉ others := fun hin => ((homem fnd).mp hin).1 hfree
      refine ⟨others, hothers.congr ?_, ?_⟩
      · intro i hi
        rw [nextOf, nextOf, hframe i (fun h => hfndOut (h ▸ hi)) (fun h => hprevOut (h ▸ hi))
          (fun h => hslotOut (h ▸ hi))]
      · intro i
        by_cases hif : i = fnd
        · subst hif
          constructor
          · exact fun hin => absurd hin hfndOut
          · exact fun hin => absurd (hin.2.symm.trans hfndHome) hqhome
        · by_cases his : i = slot
          · subst his
            simp [hslotFlag, hslotOut]
          · rw [homem, hflag i hif his, hhome i hif]

end

end Ymd.Hmap
