import Mathlib.Data.Set.Card
import Ymd.Foundation.Acyclic

/-! # Depth first traversals with marks on the way

A traversal of a graph marks some of the nodes while it goes through what is
below them, and refuses a node whose mark it meets. The first item that is
refused ends the whole traversal. Such a traversal comes to its end on a finite
graph exactly when it meets no cycle of nodes that are never marked.
-/

namespace Ymd.Foundation

/-- What there is at a node: nothing below it, something that is not accepted,
items, or items under a mark. An item that is missing stops the traversal. -/
inductive Shape (ν κ : Type)
  | leaf
  | bad
  | plain (items : List (Option ν))
  | guarded (key : κ) (items : List (Option ν))

/-- How a traversal comes out; one that is refused leaves its marks. -/
inductive Ending (κ : Type)
  | finished
  | refused (marked : κ → Bool)
  | stuck
  | deep

variable {ν κ : Type}

def goAll (go : ν → Ending κ) : List (Option ν) → Ending κ
  | [] => .finished
  | none :: _ => .stuck
  | some v :: rest =>
      match go v with
      | .finished => goAll go rest
      | .refused m => .refused m
      | .stuck => .stuck
      | .deep => .deep

/-! ## The items of a node -/

section Items

variable {f g : ν → Ending κ} {items : List (Option ν)}

/-- All items come to their end. -/
def AllFinish (f : ν → Ending κ) (items : List (Option ν)) : Prop :=
  ∀ i ∈ items, ∃ v, i = some v ∧ f v = .finished

theorem goAll_of_finished {pre : List (Option ν)} (hpre : AllFinish f pre)
    (rest : List (Option ν)) : goAll f (pre ++ rest) = goAll f rest := by
  induction pre with
  | nil => rfl
  | cons i pre ih =>
      obtain ⟨v, rfl, hv⟩ := hpre i List.mem_cons_self
      simp only [List.cons_append, goAll, hv]
      exact ih fun j hj => hpre j (List.mem_cons_of_mem _ hj)

theorem goAll_finished_iff : goAll f items = .finished ↔ AllFinish f items := by
  constructor
  · intro hall
    induction items with
    | nil => exact fun i hi => absurd hi List.not_mem_nil
    | cons i items ih =>
        cases i with
        | none => cases hall
        | some v =>
            cases hv : f v with
            | finished =>
                simp only [goAll, hv] at hall
                exact List.forall_mem_cons.2 ⟨⟨v, rfl, hv⟩, ih hall⟩
            | refused m => simp [goAll, hv] at hall
            | stuck => simp [goAll, hv] at hall
            | deep => simp [goAll, hv] at hall
  · intro hall
    have h := goAll_of_finished hall []
    rwa [List.append_nil] at h

/-- The item at which a traversal of the items ends, unless it finds none. -/
theorem exists_of_goAll {e : Ending κ} (hall : goAll f items = e) (hfin : e ≠ .finished)
    (hstuck : e ≠ .stuck) :
    ∃ pre v post, items = pre ++ some v :: post ∧ AllFinish f pre ∧ f v = e := by
  induction items with
  | nil => exact absurd hall.symm hfin
  | cons i items ih =>
      cases i with
      | none => exact absurd hall.symm hstuck
      | some v =>
          have hhere : f v = e → ∃ pre w post, some v :: items = pre ++ some w :: post ∧
              AllFinish f pre ∧ f w = e :=
            fun hv => ⟨[], v, items, rfl, fun j hj => absurd hj List.not_mem_nil, hv⟩
          cases hv : f v with
          | finished =>
              simp only [goAll, hv] at hall
              obtain ⟨pre, w, post, rfl, hpre, hw⟩ := ih hall
              exact ⟨some v :: pre, w, post, rfl, List.forall_mem_cons.2 ⟨⟨v, rfl, hv⟩, hpre⟩, hw⟩
          | refused m =>
              simp only [goAll, hv] at hall
              exact hhere (hv.trans hall)
          | stuck =>
              simp only [goAll, hv] at hall
              exact hhere (hv.trans hall)
          | deep =>
              simp only [goAll, hv] at hall
              exact hhere (hv.trans hall)

theorem goAll_of_split {pre post : List (Option ν)} {v : ν} (hpre : AllFinish f pre)
    (hv : f v ≠ .finished) : goAll f (pre ++ some v :: post) = f v := by
  rw [goAll_of_finished hpre]
  cases h : f v with
  | finished => exact absurd h hv
  | refused m => simp only [goAll, h]
  | stuck => simp only [goAll, h]
  | deep => simp only [goAll, h]

/-- A walk that says more about the items says more about all of them. -/
theorem goAll_mono (hfg : ∀ v, f v ≠ .deep → g v = f v) (hall : goAll f items ≠ .deep) :
    goAll g items = goAll f items := by
  induction items with
  | nil => rfl
  | cons i items ih =>
      cases i with
      | none => rfl
      | some v =>
          have hv : f v ≠ .deep := by
            intro hdeep
            simp [goAll, hdeep] at hall
          have hg := hfg v hv
          cases h : f v with
          | finished =>
              simp only [goAll, hg, h] at hall ⊢
              exact ih hall
          | refused m => simp only [goAll, hg, h]
          | stuck => simp only [goAll, hg, h]
          | deep => exact absurd h hv

end Items

variable [DecidableEq κ] (shape : ν → Shape ν κ)

/-- The traversal from a node under the marks `m`, with at most `depth` nodes on
the way. -/
def go : (depth : Nat) → (m : κ → Bool) → ν → Ending κ
  | 0, _, _ => .deep
  | depth + 1, m, v =>
      match shape v with
      | .leaf => .finished
      | .bad => .refused m
      | .plain items => goAll (go depth m) items
      | .guarded o items =>
          if m o then .refused m else goAll (go depth (Function.update m o true)) items

/-- Under the marks `m` the items of `v` are gone through under the marks `m'`. -/
inductive Opens : (κ → Bool) → ν → (κ → Bool) → List (Option ν) → Prop
  | plain {m : κ → Bool} {v : ν} {items : List (Option ν)} (hv : shape v = .plain items) :
      Opens m v m items
  | guarded {m : κ → Bool} {v : ν} {o : κ} {items : List (Option ν)}
      (hv : shape v = .guarded o items) (ho : m o = false) :
      Opens m v (Function.update m o true) items

/-- The node itself is refused. -/
def Closed (m : κ → Bool) (v : ν) : Prop :=
  shape v = .bad ∨ ∃ o items, shape v = .guarded o items ∧ m o = true

/-- Everything below the node is accepted, and no mark is met. -/
inductive Finishes : (κ → Bool) → ν → Prop
  | leaf {m : κ → Bool} {v : ν} (hv : shape v = .leaf) : Finishes m v
  | inside {m m' : κ → Bool} {v : ν} {items : List (Option ν)} (hopen : Opens shape m v m' items)
      (hnone : none ∉ items) (hitems : ∀ w, some w ∈ items → Finishes m' w) : Finishes m v

/-- The items are all there, and each finishes. -/
def Passes (m : κ → Bool) (items : List (Option ν)) : Prop :=
  ∀ i ∈ items, ∃ w, i = some w ∧ Finishes shape m w

/-- The node, or the first item below it that does not finish, is refused, with
the marks of the nodes on the way. -/
inductive Refuses : (κ → Bool) → ν → (κ → Bool) → Prop
  | here {m : κ → Bool} {v : ν} (hclosed : Closed shape m v) : Refuses m v m
  | inside {m m' m'' : κ → Bool} {v w : ν} {pre post : List (Option ν)}
      (hopen : Opens shape m v m' (pre ++ some w :: post)) (hpre : Passes shape m' pre)
      (hw : Refuses m' w m'') : Refuses m v m''

/-- The same with no marked node on the way. -/
inductive RefusesBare (m : κ → Bool) : ν → Prop
  | here {v : ν} (hclosed : Closed shape m v) : RefusesBare m v
  | inside {v w : ν} {pre post : List (Option ν)}
      (hv : shape v = .plain (pre ++ some w :: post)) (hpre : Passes shape m pre)
      (hw : RefusesBare m w) : RefusesBare m v

/-- The traversal of the first node under the first marks comes to the second
node under the second marks. -/
inductive Calls : (κ → Bool) × ν → (κ → Bool) × ν → Prop
  | mk {m m' : κ → Bool} {v w : ν} {pre post : List (Option ν)}
      (hopen : Opens shape m v m' (pre ++ some w :: post)) (hpre : Passes shape m' pre) :
      Calls (m, v) (m', w)

/-- A call between two nodes that are never marked. -/
inductive PlainCalls (m : κ → Bool) : ν → ν → Prop
  | mk {v w : ν} {pre post : List (Option ν)}
      (hv : shape v = .plain (pre ++ some w :: post)) (hpre : Passes shape m pre) :
      PlainCalls m v w

/-- The traversal comes to a cycle of nodes that are never marked. -/
def Loops (m : κ → Bool) (v : ν) : Prop :=
  ∃ m' w, Relation.ReflTransGen (Calls shape) (m, v) (m', w) ∧
    Relation.TransGen (PlainCalls shape m') w w

/-- One node is below the other. -/
def Below (v w : ν) : Prop :=
  ∃ items, some w ∈ items ∧ (shape v = .plain items ∨ ∃ o, shape v = .guarded o items)

section Walk

variable {shape} {m m' : κ → Bool} {v w : ν} {items : List (Option ν)} {d d' : Nat}

theorem go_of_opens (hopen : Opens shape m v m' items) :
    go shape (d + 1) m v = goAll (go shape d m') items := by
  cases hopen with
  | plain hv => simp only [go, hv]
  | guarded hv ho => simp [go, hv, ho]

theorem go_of_closed (hclosed : Closed shape m v) : go shape (d + 1) m v = .refused m := by
  rcases hclosed with hv | ⟨o, items, hv, ho⟩
  · simp only [go, hv]
  · simp only [go, hv, ho, if_true]

/-- A node is a leaf, is refused, or is gone into. -/
theorem node_cases (shape : ν → Shape ν κ) (m : κ → Bool) (v : ν) :
    shape v = .leaf ∨ Closed shape m v ∨ ∃ m' items, Opens shape m v m' items := by
  cases hv : shape v with
  | leaf => exact .inl rfl
  | bad => exact .inr (.inl (.inl hv))
  | plain items => exact .inr (.inr ⟨m, items, .plain hv⟩)
  | guarded o items =>
      cases ho : m o with
      | false => exact .inr (.inr ⟨_, items, .guarded hv ho⟩)
      | true => exact .inr (.inl (.inr ⟨o, items, hv, ho⟩))

theorem Opens.unique {m₁ m₂ : κ → Bool} {items₁ items₂ : List (Option ν)}
    (h₁ : Opens shape m v m₁ items₁) (h₂ : Opens shape m v m₂ items₂) :
    m₁ = m₂ ∧ items₁ = items₂ := by
  cases h₁ with
  | plain hv₁ =>
      cases h₂ with
      | plain hv₂ => exact ⟨rfl, Shape.plain.inj (hv₁.symm.trans hv₂)⟩
      | guarded hv₂ ho₂ => exact absurd (hv₁.symm.trans hv₂) nofun
  | guarded hv₁ ho₁ =>
      cases h₂ with
      | plain hv₂ => exact absurd (hv₁.symm.trans hv₂) nofun
      | guarded hv₂ ho₂ =>
          obtain ⟨rfl, rfl⟩ := Shape.guarded.inj (hv₁.symm.trans hv₂)
          exact ⟨rfl, rfl⟩

theorem Opens.le (hopen : Opens shape m v m' items) (o : κ) (ho : m o = true) : m' o = true := by
  cases hopen with
  | plain hv => exact ho
  | guarded hv hfree =>
      rw [Function.update_apply]
      split
      next => rfl
      next => exact ho

theorem Opens.below (hopen : Opens shape m v m' items) (hw : some w ∈ items) : Below shape v w := by
  cases hopen with
  | plain hv => exact ⟨items, hw, .inl hv⟩
  | guarded hv ho => exact ⟨items, hw, .inr ⟨_, hv⟩⟩

/-! ## More depth -/

theorem go_succ (hd : go shape d m v ≠ .deep) : go shape (d + 1) m v = go shape d m v := by
  induction d generalizing m v with
  | zero => exact absurd rfl hd
  | succ d ih =>
      rcases node_cases shape m v with hleaf | hclosed | ⟨m', items, hopen⟩
      · simp only [go, hleaf]
      · rw [go_of_closed hclosed, go_of_closed hclosed]
      · rw [go_of_opens hopen] at hd ⊢
        rw [go_of_opens hopen]
        exact goAll_mono (fun w hw => ih hw) hd

theorem go_le (hle : d ≤ d') (hd : go shape d m v ≠ .deep) : go shape d' m v = go shape d m v := by
  induction hle with
  | refl => rfl
  | step hle ih => rw [go_succ (by rwa [ih]), ih]

/-- Two depths at which the traversal ends come to the same end. -/
theorem go_unique (hd : go shape d m v ≠ .deep) (hd' : go shape d' m v ≠ .deep) :
    go shape d m v = go shape d' m v := by
  rw [← go_le (Nat.le_max_left d d') hd, ← go_le (Nat.le_max_right d d') hd']

/-- One depth for all items. -/
theorem exists_depth (m : κ → Bool) (items : List (Option ν))
    (hitems : ∀ w, some w ∈ items → ∃ d, go shape d m w ≠ .deep) :
    ∃ d, ∀ w, some w ∈ items → go shape d m w ≠ .deep := by
  induction items with
  | nil => exact ⟨0, fun w hw => absurd hw List.not_mem_nil⟩
  | cons i items ih =>
      obtain ⟨d, hd⟩ := ih fun w hw => hitems w (List.mem_cons_of_mem _ hw)
      cases i with
      | none =>
          refine ⟨d, fun w hw => hd w ?_⟩
          rcases List.mem_cons.1 hw with hw | hw
          · cases hw
          · exact hw
      | some u =>
          obtain ⟨d', hd'⟩ := hitems u List.mem_cons_self
          refine ⟨max d d', fun w hw => ?_⟩
          rcases List.mem_cons.1 hw with hw | hw
          · obtain rfl := Option.some.inj hw
            rwa [go_le (Nat.le_max_right d d') hd']
          · rw [go_le (Nat.le_max_left d d') (hd w hw)]
            exact hd w hw

/-! ## The end of a traversal -/

theorem finishes_of_go (hd : go shape d m v = .finished) : Finishes shape m v := by
  induction d generalizing m v with
  | zero => cases hd
  | succ d ih =>
      rcases node_cases shape m v with hleaf | hclosed | ⟨m', items, hopen⟩
      · exact .leaf hleaf
      · rw [go_of_closed hclosed] at hd
        cases hd
      · rw [go_of_opens hopen] at hd
        have hall := goAll_finished_iff.1 hd
        refine .inside hopen ?_ ?_
        · intro hnone
          obtain ⟨w, hw, _⟩ := hall _ hnone
          cases hw
        · intro w hw
          obtain ⟨w', hw', hfin⟩ := hall _ hw
          obtain rfl := Option.some.inj hw'
          exact ih hfin

theorem Finishes.exists_go (h : Finishes shape m v) : ∃ d, go shape d m v = .finished := by
  induction h with
  | leaf hv => exact ⟨1, by simp only [go, hv]⟩
  | @inside m m' v items hopen hnone hitems ih =>
      obtain ⟨d, hd⟩ := exists_depth m' items fun w hw => by
        obtain ⟨d, hd⟩ := ih w hw
        exact ⟨d, hd.trans_ne nofun⟩
      refine ⟨d + 1, ?_⟩
      rw [go_of_opens hopen, goAll_finished_iff]
      intro i hi
      cases i with
      | none => exact absurd hi hnone
      | some w =>
          obtain ⟨d', hd'⟩ := ih w hi
          refine ⟨w, rfl, ?_⟩
          rw [go_unique (hd w hi) (hd'.trans_ne nofun), hd']

theorem Finishes.go_eq (h : Finishes shape m v) (hd : go shape d m v ≠ .deep) :
    go shape d m v = .finished := by
  obtain ⟨d', hd'⟩ := h.exists_go
  rw [go_unique hd (hd'.trans_ne nofun), hd']

theorem AllFinish.passes {pre : List (Option ν)} (hpre : AllFinish (go shape d m) pre) :
    Passes shape m pre := by
  intro i hi
  obtain ⟨w, rfl, hw⟩ := hpre i hi
  exact ⟨w, rfl, finishes_of_go hw⟩

theorem Passes.allFinish {pre : List (Option ν)} (hpre : Passes shape m pre)
    (hd : ∀ w, some w ∈ pre → go shape d m w ≠ .deep) : AllFinish (go shape d m) pre := by
  intro i hi
  obtain ⟨w, rfl, hw⟩ := hpre i hi
  exact ⟨w, rfl, hw.go_eq (hd w hi)⟩

theorem refuses_of_go {marks : κ → Bool} (hd : go shape d m v = .refused marks) :
    Refuses shape m v marks := by
  induction d generalizing m v with
  | zero => cases hd
  | succ d ih =>
      rcases node_cases shape m v with hleaf | hclosed | ⟨m', items, hopen⟩
      · simp only [go, hleaf] at hd
        cases hd
      · rw [go_of_closed hclosed] at hd
        cases hd
        exact .here hclosed
      · rw [go_of_opens hopen] at hd
        obtain ⟨pre, w, post, rfl, hpre, hw⟩ := exists_of_goAll hd nofun nofun
        exact .inside hopen hpre.passes (ih hw)

theorem Refuses.exists_go {marks : κ → Bool} (h : Refuses shape m v marks) :
    ∃ d, go shape d m v = .refused marks := by
  induction h with
  | here hclosed => exact ⟨1, go_of_closed hclosed⟩
  | @inside m m' m'' v w pre post hopen hpre hw ih =>
      obtain ⟨d, hd⟩ := ih
      obtain ⟨d', hd'⟩ := exists_depth m' pre fun p hp => by
        obtain ⟨p', hp', hfin⟩ := hpre _ hp
        obtain rfl := Option.some.inj hp'
        obtain ⟨d, hd⟩ := hfin.exists_go
        exact ⟨d, hd.trans_ne nofun⟩
      have hw' : go shape (max d d') m' w = .refused m'' := by
        rw [go_le (Nat.le_max_left d d') (hd.trans_ne nofun), hd]
      have hall : AllFinish (go shape (max d d') m') pre := by
        apply hpre.allFinish
        intro p hp
        rw [go_le (Nat.le_max_right d d') (hd' p hp)]
        exact hd' p hp
      refine ⟨max d d' + 1, ?_⟩
      rw [go_of_opens hopen, goAll_of_split hall (hw'.trans_ne nofun), hw']

theorem Refuses.not_finishes {marks : κ → Bool} (h : Refuses shape m v marks) :
    ¬ Finishes shape m v := by
  intro hfin
  obtain ⟨d, hd⟩ := h.exists_go
  have hgo := hfin.go_eq (d := d) (hd.trans_ne nofun)
  rw [hd] at hgo
  cases hgo

theorem Refuses.unique {marks marks' : κ → Bool} (h : Refuses shape m v marks)
    (h' : Refuses shape m v marks') : marks = marks' := by
  obtain ⟨d, hd⟩ := h.exists_go
  obtain ⟨d', hd'⟩ := h'.exists_go
  have hsame := go_unique (hd.trans_ne nofun) (hd'.trans_ne nofun)
  rw [hd, hd'] at hsame
  exact Ending.refused.inj hsame

/-! ## The marks that are left -/

theorem Refuses.le {marks : κ → Bool} (h : Refuses shape m v marks) (o : κ) (ho : m o = true) :
    marks o = true := by
  induction h with
  | here hclosed => exact ho
  | inside hopen hpre hw ih => exact ih (hopen.le o ho)

theorem RefusesBare.refuses (h : RefusesBare shape m v) : Refuses shape m v m := by
  induction h with
  | here hclosed => exact .here hclosed
  | inside hv hpre hw ih => exact .inside (.plain hv) hpre ih

/-- A traversal that is refused leaves no mark of its own exactly when there was
no marked node on the way to what is refused. -/
theorem Refuses.marks_eq_iff {marks : κ → Bool} (h : Refuses shape m v marks) :
    marks = m ↔ RefusesBare shape m v := by
  constructor
  · intro hsame
    induction h with
    | here hclosed => exact .here hclosed
    | inside hopen hpre hw ih =>
        cases hopen with
        | plain hv => exact .inside hv hpre (ih hsame)
        | guarded hv ho =>
            have hmark := hw.le _ (Function.update_self _ _ _)
            rw [hsame, ho] at hmark
            cases hmark
  · intro hbare
    exact h.unique hbare.refuses

/-! ## Nothing that finishes has a cycle below it -/

theorem Finishes.acc (h : Finishes shape m v) : Acc (fun w u => Below shape u w) v := by
  induction h with
  | leaf hv =>
      constructor
      rintro w ⟨items, _, hitems | ⟨o, hitems⟩⟩
      · exact absurd (hv.symm.trans hitems) nofun
      · exact absurd (hv.symm.trans hitems) nofun
  | inside hopen hnone hitems ih =>
      constructor
      rintro w ⟨items', hw, hshape⟩
      apply ih
      cases hopen with
      | plain hv =>
          rcases hshape with hshape | ⟨o, hshape⟩
          · rw [hv] at hshape
            rwa [Shape.plain.inj hshape]
          · exact absurd (hv.symm.trans hshape) nofun
      | guarded hv ho =>
          rcases hshape with hshape | ⟨o, hshape⟩
          · exact absurd (hv.symm.trans hshape) nofun
          · rw [hv] at hshape
            rwa [(Shape.guarded.inj hshape).2]

/-! ## Termination -/

/-- The traversal ends at some depth when all calls below end. -/
theorem exists_go_of_acc (hacc : Acc (fun c c' => Calls shape c' c) (m, v)) :
    ∃ d, go shape d m v ≠ .deep := by
  obtain ⟨c, hc⟩ : ∃ c, c = (m, v) := ⟨_, rfl⟩
  rw [← hc] at hacc
  induction hacc generalizing m v with
  | intro c _ ih =>
      subst hc
      rcases node_cases shape m v with hleaf | hclosed | ⟨m', items, hopen⟩
      · exact ⟨1, by simp [go, hleaf]⟩
      · exact ⟨1, by simp [go_of_closed hclosed]⟩
      -- one item after the other, as long as those in front finish
      have hrest : ∀ pre post, items = pre ++ post → Passes shape m' pre →
          ∃ d, goAll (go shape d m') post ≠ .deep := by
        intro pre post
        induction post generalizing pre with
        | nil => exact fun _ _ => ⟨0, nofun⟩
        | cons i post ihpost =>
            intro hitems hpre
            cases i with
            | none => exact ⟨0, nofun⟩
            | some w =>
                obtain ⟨d, hd⟩ := ih (m', w) (.mk (hitems ▸ hopen) hpre) rfl
                by_cases hfin : go shape d m' w = .finished
                · obtain ⟨d', hd'⟩ := ihpost (pre ++ [some w])
                    (by rw [List.append_assoc]; exact hitems) (by
                      intro j hj
                      rcases List.mem_append.1 hj with hj | hj
                      · exact hpre j hj
                      · rw [List.mem_singleton.1 hj]
                        exact ⟨w, rfl, finishes_of_go hfin⟩)
                  refine ⟨max d d', ?_⟩
                  have hw : go shape (max d d') m' w = .finished := by
                    rw [go_le (Nat.le_max_left d d') hd, hfin]
                  have hpost : goAll (go shape (max d d') m') post = goAll (go shape d' m') post :=
                    goAll_mono (fun u hu => go_le (Nat.le_max_right d d') hu) hd'
                  simp only [goAll, hw]
                  rwa [hpost]
                · refine ⟨d, ?_⟩
                  have hsplit : goAll (go shape d m') ([] ++ some w :: post) = go shape d m' w :=
                    goAll_of_split (fun j hj => absurd hj List.not_mem_nil) hfin
                  rw [List.nil_append] at hsplit
                  rwa [hsplit]
      obtain ⟨d, hd⟩ := hrest [] items rfl fun i hi => absurd hi List.not_mem_nil
      exact ⟨d + 1, by rwa [go_of_opens hopen]⟩

/-- At a depth that is enough for the items it is enough for each of them up to
the first that does not finish. -/
theorem Passes.allFinish_of_goAll {pre rest : List (Option ν)} (hpre : Passes shape m pre)
    (hall : goAll (go shape d m) (pre ++ rest) ≠ .deep) : AllFinish (go shape d m) pre := by
  induction pre with
  | nil => exact fun i hi => absurd hi List.not_mem_nil
  | cons i pre ih =>
      obtain ⟨u, rfl, hu⟩ := hpre i List.mem_cons_self
      have hfin : go shape d m u = .finished := by
        apply hu.go_eq
        intro hdeep
        apply hall
        simp only [List.cons_append, goAll, hdeep]
      simp only [List.cons_append, goAll, hfin] at hall
      exact List.forall_mem_cons.2 ⟨⟨u, rfl, hfin⟩,
        ih (fun j hj => hpre j (List.mem_cons_of_mem _ hj)) hall⟩

theorem acc_of_go (hd : go shape d m v ≠ .deep) : Acc (fun c c' => Calls shape c' c) (m, v) := by
  induction d generalizing m v with
  | zero => exact absurd rfl hd
  | succ d ih =>
      constructor
      rintro _ ⟨hopen, hpre⟩
      rw [go_of_opens hopen] at hd
      apply ih
      intro hdeep
      apply hd
      rw [goAll_of_split (hpre.allFinish_of_goAll hd) (hdeep.trans_ne nofun), hdeep]

theorem exists_go_iff_acc :
    (∃ d, go shape d m v ≠ .deep) ↔ Acc (fun c c' => Calls shape c' c) (m, v) :=
  ⟨fun ⟨_, hd⟩ => acc_of_go hd, exists_go_of_acc⟩

/-! ## Cycles -/

theorem PlainCalls.calls (h : PlainCalls shape m v w) : Calls shape (m, v) (m, w) := by
  cases h with
  | mk hv hpre => exact .mk (.plain hv) hpre

theorem reflTransGen_calls (h : Relation.ReflTransGen (PlainCalls shape m) v w) :
    Relation.ReflTransGen (Calls shape) (m, v) (m, w) := by
  induction h with
  | refl => exact .refl
  | tail _ hstep ih => exact ih.tail hstep.calls

theorem not_acc_of_loops (hloops : Loops shape m v) :
    ¬ Acc (fun c c' => Calls shape c' c) (m, v) := by
  obtain ⟨m', w, hreach, hcycle⟩ := hloops
  intro hacc
  have hdown : ∀ c c', Relation.ReflTransGen (Calls shape) c c' →
      Acc (fun c c' => Calls shape c' c) c → Acc (fun c c' => Calls shape c' c) c' := by
    intro c c' hreach hc
    induction hreach with
    | refl => exact hc
    | tail _ hstep ih => exact ih.inv hstep
  apply not_transGen_self_of_acc (hdown _ _ hreach hacc)
  apply Relation.transGen_swap.2
  exact Relation.TransGen.lift (fun u => (m', u)) (fun _ _ hstep => hstep.calls) _ _ hcycle

/-- The nodes that a traversal under the marks `m` can mark. -/
def unmarked (shape : ν → Shape ν κ) (m : κ → Bool) (nodes : Set ν) : Set ν :=
  {v ∈ nodes | ∃ o items, shape v = .guarded o items ∧ m o = false}

theorem unmarked_ncard_lt {nodes : Set ν} {o : κ} (hfinite : nodes.Finite) (hmem : v ∈ nodes)
    (hv : shape v = .guarded o items) (ho : m o = false) :
    (unmarked shape (Function.update m o true) nodes).ncard < (unmarked shape m nodes).ncard := by
  apply Set.ncard_lt_ncard ?_ (hfinite.subset fun u hu => hu.1)
  constructor
  · rintro u ⟨hu, p, items', hshape, hp⟩
    refine ⟨hu, p, items', hshape, ?_⟩
    rw [Function.update_apply] at hp
    split at hp
    next => cases hp
    next => exact hp
  · intro hsub
    obtain ⟨_, p, items', hshape, hp⟩ := hsub ⟨hmem, o, items, hv, ho⟩
    obtain ⟨rfl, _⟩ := Shape.guarded.inj (hv.symm.trans hshape)
    rw [Function.update_self] at hp
    cases hp

/-- On finitely many nodes the calls end, unless they run around a cycle that is
never marked: every other way round marks one more node. -/
theorem acc_of_not_loops {nodes : Set ν} (hfinite : nodes.Finite)
    (hbelow : ∀ u ∈ nodes, ∀ w, Below shape u w → w ∈ nodes) (hmem : v ∈ nodes)
    (hloops : ¬ Loops shape m v) : Acc (fun c c' => Calls shape c' c) (m, v) := by
  induction hn : (unmarked shape m nodes).ncard using Nat.strong_induction_on generalizing m v with
  | _ n ih =>
    let near := {w | w ∈ nodes ∧ Relation.ReflTransGen (PlainCalls shape m) v w}
    have hnear : near.Finite := hfinite.subset fun w hw => hw.1
    have hwf := wellFounded_of_acyclic (r := fun a b => PlainCalls shape m b a) hnear
      fun w hw hcycle => hloops ⟨m, w, reflTransGen_calls hw.2, Relation.transGen_swap.1 hcycle⟩
    have hall : ∀ a : near, Acc (fun c c' => Calls shape c' c) (m, a.1) := by
      intro a
      induction a using hwf.induction with
      | _ a ihnear =>
        constructor
        rintro _ ⟨hopen, hpre⟩
        rename_i w pre post
        have hitem : some w ∈ pre ++ some w :: post := by simp
        have hw := hbelow _ a.2.1 _ (hopen.below hitem)
        cases hopen with
        | plain hv =>
            have hstep : PlainCalls shape m a.1 w := .mk hv hpre
            exact ihnear ⟨w, hw, a.2.2.tail hstep⟩ hstep
        | guarded hv ho =>
            have hless := unmarked_ncard_lt hfinite a.2.1 hv ho
            apply ih _ (hn ▸ hless) hw _ rfl
            rintro ⟨m', u, hreach, hcycle⟩
            apply hloops
            refine ⟨m', u, (reflTransGen_calls a.2.2).trans ?_, hcycle⟩
            exact .head (.mk (.guarded hv ho) hpre) hreach
    exact hall ⟨v, hmem, .refl⟩

theorem exists_go_iff_not_loops {nodes : Set ν} (hfinite : nodes.Finite)
    (hbelow : ∀ u ∈ nodes, ∀ w, Below shape u w → w ∈ nodes) (hmem : v ∈ nodes) :
    (∃ d, go shape d m v ≠ .deep) ↔ ¬ Loops shape m v := by
  rw [exists_go_iff_acc]
  exact ⟨fun hacc hloops => not_acc_of_loops hloops hacc,
    acc_of_not_loops hfinite hbelow hmem⟩

end Walk

end Ymd.Foundation
