import Ymd.Machine.Operators
import Ymd.Value.Fmtx

/-! # String buffers

The functions of a `strbuf`, and the text that they put together.
-/

namespace Ymd

open Foundation

/-! ## `libc.c` -/

/-- The state of a native function that has the buffer at hand. -/
abbrev StrbufM := EStateM Stop (Printing Strbuf)

def strbufCheck {α : Type} : Partial α → StrbufM α
  | .ok a => pure a
  | .error stop => throw stop

def strbufPrint (x : PrintM Strbuf Unit) : StrbufM Unit := fun s =>
  match x s with
  | .ok _ s' => .ok () s'
  | .error f s' => .error (.fault f) s'

/-- `ymd_argv_chk`. -/
def argvChk (argv : List Variable) (need : Nat) : Partial Unit :=
  if argv.length < need then
    .error (.panic (lit "Bad argument, need > " ++ lit (toString need)))
  else .ok ()

/-- `ymd_argv_get`. -/
def argvGet (argv : List Variable) (i : Nat) : Partial Variable := do
  argvChk argv (i + 1)
  return argv.getD i .nil

/-- `T_STRBUF`. -/
def tStrbuf : Bytes := lit "strbuf"

/-- `mand_land`, with the type names as `env` has them. -/
def mandLand (env : PrintEnv) (var : Variable) (tt : Bytes) : Partial Addr :=
  match var with
  | .mand o =>
      match env.tt o with
      | some name =>
          if tt = name then .ok o
          else .error (.panic (lit "Unexpected managed type `" ++ tt ++ lit "`"))
      | none => .fault (.bounds "m->tt")
  | _ => .panic "Variable is not `mand`"

/-- The loop of `libx_cat`. -/
def catArgs (heap : Heap) (env : PrintEnv) (depth : Nat) : List Variable → StrbufM Unit
  | [] => pure ()
  | v :: rest => do
      strbufPrint (tostring heap env depth v)
      catArgs heap env depth rest

def libxCat (heap : Heap) (env : PrintEnv) (depth : Nat) (argv : List Variable) :
    StrbufM (List Variable) := do
  let _ ← strbufCheck (argvGet argv 0 >>= fun v => mandLand env v tStrbuf)
  strbufCheck (argvChk argv 2)
  catArgs heap env depth (argv.drop 1)
  return [← strbufCheck (argvGet argv 0)]

def libxGet (env : PrintEnv) (argv : List Variable) : StrbufM (List Variable) := do
  let _ ← strbufCheck (argvGet argv 0 >>= fun v => mandLand env v tStrbuf)
  let self := (← get).ctx
  if self.last = 0 then return []
  else return [.kstr (← strbufCheck (.ofFault self.text))]

def libxClear (env : PrintEnv) (argv : List Variable) : StrbufM (List Variable) := do
  let _ ← strbufCheck (argvGet argv 0 >>= fun v => mandLand env v tStrbuf)
  modify fun s => { s with ctx := s.ctx.final }
  return []

/-- A call, with the heap it finds. -/
inductive StrbufCall
  | cat (heap : Heap) (env : PrintEnv) (argv : List Variable)
  | get (env : PrintEnv) (argv : List Variable)
  | clear (env : PrintEnv) (argv : List Variable)

def StrbufCall.run (depth : Nat) : StrbufCall → StrbufM (List Variable)
  | .cat heap env argv => libxCat heap env depth argv
  | .get env argv => libxGet env argv
  | .clear env argv => libxClear env argv

/-- The calls one after the other, with what each of them returns. -/
def strbufCalls (depth : Nat) : List StrbufCall → StrbufM (List (List Variable))
  | [] => pure []
  | c :: rest => do
      let values ← c.run depth
      return values :: (← strbufCalls depth rest)

/-! ## The text of a buffer -/

/-- A call that is given texts in place of values. -/
inductive TextCall
  | cat (self : Variable) (texts : List Bytes)
  | get
  | clear

namespace TextCall

/-- The texts since the last `clear`, behind the call. -/
def added (texts : List Bytes) : TextCall → List Bytes
  | .cat _ new => texts ++ new
  | .get => texts
  | .clear => []

/-- What the call returns behind `texts`. -/
def answer (texts : List Bytes) : TextCall → List Variable
  | .cat self _ => [self]
  | .get => if ∀ z ∈ texts, z = [] then [] else [.kstr texts.flatten]
  | .clear => []

def answers : (texts : List Bytes) → List TextCall → List (List Variable)
  | _, [] => []
  | texts, c :: rest => c.answer texts :: answers (c.added texts) rest

/-- The text never has `n` bytes. -/
def Below (n : Nat) : (texts : List Bytes) → List TextCall → Prop
  | _, [] => True
  | texts, c :: rest => (c.added texts).flatten.length < n ∧ Below n (c.added texts) rest

end TextCall

namespace StrbufCall

/-- The call with the texts of its values. -/
inductive Texts : StrbufCall → TextCall → Prop
  | cat {heap : Heap} {env : PrintEnv} {self : Variable} {args : List Variable}
      {texts : List Bytes} (htexts : List.Forall₂ (Renders heap env) args texts) :
      Texts (.cat heap env (self :: args)) (.cat self texts)
  | get {env : PrintEnv} {argv : List Variable} : Texts (.get env argv) .get
  | clear {env : PrintEnv} {argv : List Variable} : Texts (.clear env argv) .clear

/-- The first argument is a `strbuf`, and there is a text for every other one. -/
def OnStrbuf : StrbufCall → Prop
  | .cat heap env argv => ∃ o args, argv = .mand o :: args ∧ env.tt o = some tStrbuf ∧ args ≠ [] ∧
      env.Short ∧ env.Strings ∧ PrintGraph heap ∧ ∀ v ∈ args, Printable heap v
  | .get env argv | .clear env argv => ∃ o args, argv = .mand o :: args ∧ env.tt o = some tStrbuf

end StrbufCall

/-! ## Calls on a buffer -/

theorem exists_forall₂ {α β : Type} {rel : α → β → Prop} {l : List α}
    (h : ∀ a ∈ l, ∃ b, rel a b) : ∃ bs, List.Forall₂ rel l bs := by
  induction l with
  | nil => exact ⟨[], .nil⟩
  | cons a l ih =>
      rw [List.forall_mem_cons] at h
      obtain ⟨b, hb⟩ := h.1
      obtain ⟨bs, hbs⟩ := ih h.2
      exact ⟨b :: bs, .cons hb hbs⟩

theorem argvGet_zero (self : Variable) (args : List Variable) :
    argvGet (self :: args) 0 = .ok self := by
  have hchk : argvChk (self :: args) 1 = .ok () := if_neg (by simp)
  rw [argvGet, except_bind_of_ok hchk]
  rfl

theorem strbufCheck_land {env : PrintEnv} {o : Addr} (htt : env.tt o = some tStrbuf)
    (args : List Variable) (s : Printing Strbuf) :
    strbufCheck (argvGet (.mand o :: args) 0 >>= fun v => mandLand env v tStrbuf) s = .ok o s := by
  have hland : mandLand env (.mand o) tStrbuf = .ok o := by simp [mandLand, htt]
  rw [except_bind_of_ok (argvGet_zero _ _), hland]
  rfl

section

variable {heap : Heap} {env : PrintEnv} {depth : Nat} {sb : Strbuf} {ctx : Fmtx}

/-- The texts are put behind each other, as long as all of them fit. -/
theorem catArgs_shows (hshort : env.Short) (hstrings : env.Strings) (hgraph : PrintGraph heap)
    {args : List Variable} {texts : List Bytes} (hargs : ∀ v ∈ args, Printable heap v)
    (htexts : List.Forall₂ (fun v z => rendered heap env depth [] v = some z) args texts)
    (hshows : sb.Shows ctx) (hfits : (ctx.buf ++ texts.flatten).length < 2 ^ 29) :
    ∃ sb' ctx', catArgs heap env depth args ⟨sb, fun _ => false⟩ = .ok () ⟨sb', fun _ => false⟩ ∧
      sb'.Shows ctx' ∧ ctx'.buf = ctx.buf ++ texts.flatten := by
  induction htexts generalizing sb ctx with
  | nil => exact ⟨sb, ctx, rfl, hshows, (List.append_nil _).symm⟩
  | @cons v z args texts hv _ ih =>
      rw [List.forall_mem_cons] at hargs
      rw [List.flatten_cons, ← List.append_assoc] at hfits
      have hroom : ctx.Room := hshows.room.trans_eq hshows.max
      have hclear : ∀ a : Addr, (fun _ => false) a = decide (a ∈ ([] : List Addr)) := fun a => by
        simp
      have hlength : ctx.last + z.length < 2 ^ 29 := by
        rw [List.length_append, List.length_append] at hfits
        exact Nat.lt_of_le_of_lt (Nat.le_add_right _ _) hfits
      obtain ⟨ctx₁, hrun, -, hbuf⟩ :=
        emits_tostring hshort hgraph hargs.1 hclear hv ctx hroom (by omega)
      obtain ⟨sb₁, hsb, hshows₁⟩ :=
        mirrors_tostring hshort hstrings hgraph hargs.1 depth hshows hrun
      rw [← hbuf] at hfits
      obtain ⟨sb₂, ctx₂, hrest, hshows₂, hbuf₂⟩ := ih hargs.2 hshows₁ hfits
      refine ⟨sb₂, ctx₂, ?_, hshows₂, ?_⟩
      · have hprint : strbufPrint (tostring heap env depth v) ⟨sb, fun _ => false⟩
            = .ok () ⟨sb₁, fun _ => false⟩ := by
          rw [strbufPrint, hsb]
        exact (bind_of_ok hprint).trans hrest
      · rw [hbuf₂, hbuf, List.flatten_cons, List.append_assoc]

theorem rendered_texts {args : List Variable} {texts : List Bytes}
    (h : List.Forall₂ (Renders heap env) args texts) : ∃ depth₀, ∀ depth ≥ depth₀,
      List.Forall₂ (fun v z => rendered heap env depth [] v = some z) args texts := by
  induction h with
  | nil => exact ⟨0, fun _ _ => .nil⟩
  | cons hv _ ih =>
      obtain ⟨d, hd⟩ := hv
      obtain ⟨d', hd'⟩ := ih
      refine ⟨max d d', fun depth hle => .cons ?_ ?_⟩
      · exact rendered_le ((Nat.le_max_left d d').trans hle) hd
      · exact hd' depth ((Nat.le_max_right d d').trans hle)

end

/-- A call adds its texts, answers with all of them, or drops them. -/
theorem run_shows {c : StrbufCall} {t : TextCall} (hon : c.OnStrbuf) (ht : c.Texts t) :
    ∃ depth₀, ∀ depth ≥ depth₀, ∀ sb ctx texts, sb.Shows ctx → ctx.buf = texts.flatten →
      (t.added texts).flatten.length < 2 ^ 29 →
      ∃ sb' ctx', c.run depth ⟨sb, fun _ => false⟩ = .ok (t.answer texts) ⟨sb', fun _ => false⟩ ∧
        sb'.Shows ctx' ∧ ctx'.buf = (t.added texts).flatten := by
  cases ht with
  | @cat heap env self args new htexts =>
      obtain ⟨o, args', hargv, htt, hsome, hshort, hstrings, hgraph, hprintable⟩ := hon
      obtain ⟨rfl, rfl⟩ := List.cons.inj hargv
      obtain ⟨depth₀, hdepth⟩ := rendered_texts htexts
      refine ⟨depth₀, fun depth hle sb ctx texts hshows hbuf hfits => ?_⟩
      rw [TextCall.added, List.flatten_append, ← hbuf] at hfits
      obtain ⟨sb', ctx', hcat, hshows', hbuf'⟩ :=
        catArgs_shows hshort hstrings hgraph hprintable (hdepth depth hle) hshows hfits
      refine ⟨sb', ctx', ?_, hshows', ?_⟩
      · have hchk : argvChk (.mand o :: args) 2 = .ok () := by
          apply if_neg
          have hpos := List.length_pos_iff.2 hsome
          rw [List.length_cons]
          omega
        rw [StrbufCall.run, libxCat, bind_of_ok (strbufCheck_land htt args _), hchk, argvGet_zero]
        exact (bind_of_ok hcat)
      · rw [hbuf', hbuf, TextCall.added, List.flatten_append]
  | @get env argv =>
      obtain ⟨o, args, rfl, htt⟩ := hon
      refine ⟨0, fun depth _ sb ctx texts hshows hbuf _ => ⟨sb, ctx, ?_, hshows, hbuf⟩⟩
      rw [StrbufCall.run, libxGet, bind_of_ok (strbufCheck_land htt args _),
        bind_of_ok (get_apply _)]
      have hempty : sb.last = 0 ↔ ∀ z ∈ texts, z = [] := by
        rw [hshows.last, Fmtx.last, hbuf, List.length_eq_zero_iff, List.flatten_eq_nil_iff]
      by_cases hlast : sb.last = 0
      · rw [if_pos hlast, TextCall.answer, if_pos (hempty.1 hlast)]
        rfl
      · rw [if_neg hlast, TextCall.answer, if_neg (fun hall => hlast (hempty.2 hall)),
          Strbuf.text_shows hshows, hbuf]
        rfl
  | @clear env argv =>
      obtain ⟨o, args, rfl, htt⟩ := hon
      refine ⟨0, fun depth _ sb ctx texts hshows _ _ =>
        ⟨sb.final, Fmtx.init, ?_, Strbuf.final_shows hshows, rfl⟩⟩
      rw [StrbufCall.run, libxClear, bind_of_ok (strbufCheck_land htt args _)]
      rfl

theorem strbufCalls_shows {calls : List StrbufCall} {texts : List TextCall}
    (hcalls : ∀ c ∈ calls, c.OnStrbuf) (htexts : List.Forall₂ StrbufCall.Texts calls texts) :
    ∃ depth₀, ∀ depth ≥ depth₀, ∀ sb ctx pending, sb.Shows ctx → ctx.buf = pending.flatten →
      TextCall.Below (2 ^ 29) pending texts →
      ∃ sb' ctx', strbufCalls depth calls ⟨sb, fun _ => false⟩
          = .ok (TextCall.answers pending texts) ⟨sb', fun _ => false⟩ ∧ sb'.Shows ctx' := by
  induction htexts with
  | nil => exact ⟨0, fun _ _ sb ctx _ hshows _ _ => ⟨sb, ctx, rfl, hshows⟩⟩
  | @cons c t calls texts ht _ ih =>
      rw [List.forall_mem_cons] at hcalls
      obtain ⟨d, hstep⟩ := run_shows hcalls.1 ht
      obtain ⟨d', hrest⟩ := ih hcalls.2
      refine ⟨max d d', fun depth hle sb ctx pending hshows hbuf hbelow => ?_⟩
      obtain ⟨sb₁, ctx₁, hrun₁, hshows₁, hbuf₁⟩ := hstep depth ((Nat.le_max_left d d').trans hle)
        sb ctx pending hshows hbuf hbelow.1
      obtain ⟨sb₂, ctx₂, hrun₂, hshows₂⟩ := hrest depth ((Nat.le_max_right d d').trans hle)
        sb₁ ctx₁ _ hshows₁ hbuf₁ hbelow.2
      refine ⟨sb₂, ctx₂, ?_, hshows₂⟩
      rw [strbufCalls, bind_of_ok hrun₁, bind_of_ok hrun₂]
      rfl

theorem exists_texts {c : StrbufCall} (hon : c.OnStrbuf) : ∃ t, c.Texts t := by
  cases c with
  | cat heap env argv =>
      obtain ⟨o, args, rfl, _, _, hshort, _, hgraph, hprintable⟩ := hon
      obtain ⟨texts, htexts⟩ := exists_forall₂ fun v hv =>
        (tostring_renders hshort hgraph (hprintable v hv)).imp fun _ h => h.1
      exact ⟨_, .cat htexts⟩
  | get env argv => exact ⟨.get, .get⟩
  | clear env argv => exact ⟨.clear, .clear⟩

/-- A string buffer gives back the texts that were added to it since it was made or
cleared, one behind the other, and nothing where they are all empty. Every write had
its room in the buffer. -/
theorem strbuf_concatenates {calls : List StrbufCall} (hcalls : ∀ c ∈ calls, c.OnStrbuf) :
    (∃ texts, List.Forall₂ StrbufCall.Texts calls texts) ∧
      ∀ texts, List.Forall₂ StrbufCall.Texts calls texts → TextCall.Below (2 ^ 29) [] texts →
        ∃ depth₀, ∀ depth ≥ depth₀, ∃ sb : Strbuf,
          strbufCalls depth calls ⟨Strbuf.init, fun _ => false⟩
            = .ok (TextCall.answers [] texts) ⟨sb, fun _ => false⟩ ∧
          sb.last ≤ sb.max ∧ ∀ w ∈ sb.writes, w.Fits := by
  refine ⟨exists_forall₂ fun c hc => exists_texts (hcalls c hc), fun texts htexts hbelow => ?_⟩
  obtain ⟨depth₀, hdepth⟩ := strbufCalls_shows hcalls htexts
  refine ⟨depth₀, fun depth hle => ?_⟩
  obtain ⟨sb, ctx, hrun, hshows⟩ :=
    hdepth depth hle Strbuf.init Fmtx.init [] Strbuf.init_shows rfl hbelow
  exact ⟨sb, hrun, hshows.last_le, hshows.fits⟩

/-- Every managed object is a string buffer. -/
private def strbufEnv : PrintEnv := ⟨fun _ => some tStrbuf, fun _ => 0, fun _ => lit "0x0"⟩

theorem strbuf_concatenates_two : ∃ depth sb, strbufCalls depth
      [.cat ownArray strbufEnv [.mand 5, .dyay 0, .kstr (lit "ab")], .get strbufEnv [.mand 5],
        .clear strbufEnv [.mand 5], .get strbufEnv [.mand 5]] ⟨Strbuf.init, fun _ => false⟩
    = .ok [[.mand 5], [.kstr (lit "[..[self].., 7]ab")], [], []] ⟨sb, fun _ => false⟩ := by
  have hshort : strbufEnv.Short := fun _ => show (lit "0x0").length ≤ 20 by decide
  have hstrings : strbufEnv.Strings := fun _ => show 0 ∉ lit "0x0" by decide
  have hland : ∃ o args, [Variable.mand 5] = .mand o :: args ∧ strbufEnv.tt o = some tStrbuf :=
    ⟨5, [], rfl, rfl⟩
  have hcat : StrbufCall.OnStrbuf
      (.cat ownArray strbufEnv [.mand 5, .dyay 0, .kstr (lit "ab")]) := by
    refine ⟨5, _, rfl, rfl, List.cons_ne_nil _ _, hshort, hstrings, ownArray_graph, ?_⟩
    intro v hv
    rcases List.mem_cons.1 hv with rfl | hv
    · exact ⟨_, rfl⟩
    · obtain rfl := List.mem_singleton.1 hv
      exact trivial
  have htexts : List.Forall₂ (Renders ownArray strbufEnv) [.dyay 0, .kstr (lit "ab")]
      [lit "[..[self].., 7]", lit "ab"] := .cons ⟨2, rfl⟩ (.cons ⟨1, rfl⟩ .nil)
  have hcalls : ∀ call ∈ [StrbufCall.cat ownArray strbufEnv
      [.mand 5, .dyay 0, .kstr (lit "ab")], .get strbufEnv [.mand 5], .clear strbufEnv [.mand 5],
      .get strbufEnv [.mand 5]], call.OnStrbuf := by
    simp only [List.forall_mem_cons]
    exact ⟨hcat, hland, hland, hland, List.forall_mem_nil _⟩
  obtain ⟨-, hrun⟩ := strbuf_concatenates hcalls
  obtain ⟨depth, hdepth⟩ := hrun _
    (.cons (.cat htexts) (.cons .get (.cons .clear (.cons .get .nil))))
    ⟨by decide, by decide, by decide, by decide, trivial⟩
  obtain ⟨sb, hsb, -⟩ := hdepth depth le_rfl
  exact ⟨depth, sb, hsb⟩

end Ymd
