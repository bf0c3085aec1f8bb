import Libntech.Logging.Log

/-! # What a log buffer is for

A run with buffers is a run without any, in which the messages that go to a buffer come when it is committed, from the thread
that commits it, and those of a discarded buffer do not come at all. What is held back is told from the calls alone.
-/
namespace Libntech.Logging
set_option autoImplicit false

open Libntech.Json (Bytes ascii)

variable {σ : Type}

/-! ## Without a buffer -/

def Globals.plain (g : Globals σ) : Globals σ :=
  { g with log_buffer := Option.none, logging_into_buffer := false, min_log_into_buffer_level := .nothing,
           max_log_into_buffer_level := .nothing }

/-- The message is held back. -/
def Globals.holds (g : Globals σ) (t : Thread) (level : LogLevel) : Bool :=
  (getCurrentThreadContext g t).1.wouldLog level && g.buffers level

def LogEntry.op (entry : LogEntry) : Op σ := .log entry.level entry.msg

/-! ## Sections

What a buffer is for, in terms of the calls: between `start` and `commit` the messages of some levels are set aside. -/

structure Section where
  min_level : LogLevel
  max_level : LogLevel
  held : List LogEntry

def Section.takes (opened : Section) (level : LogLevel) : Bool := opened.min_level ≤ level ∧ level ≤ opened.max_level

/-- The message that a call gives to the log; raw data are for the levels of the thread only. -/
def Op.message (lctx : LoggingContext σ) : Op σ → Option LogEntry
  | .log level msg => some ⟨level, msg⟩
  | .logRaw level rawPrefix buf =>
    if level ≤ lctx.report_level ∨ level ≤ lctx.log_level then
      some ⟨level, rawPrefix ++ buf.map fun c => if isPrint c then c else '.'.toUInt8⟩
    else Option.none
  | _ => Option.none

/-- The message is set aside. -/
def Section.sets (opened : Option Section) (lctx : LoggingContext σ) (op : Op σ) : Option (Section × LogEntry) := do
  let current ← opened
  let entry ← op.message lctx
  if lctx.wouldLog entry.level && current.takes entry.level then some (current, entry) else Option.none

/-- Any call between `start` and `commit`. -/
def setAside (opened : Option Section) (lctx : LoggingContext σ) (t : Thread) (op : Op σ) :
    Option Section × List (Thread × Op σ) :=
  match Section.sets opened lctx op with
  | some (current, entry) => (some { current with held := current.held ++ [entry] }, [(t, .wouldLog)])
  | Option.none => (opened, [(t, op)])

/-- The section after a call, and what is called instead, by the levels of the calling thread. -/
def unbufferedStep (opened : Option Section) (lctx : LoggingContext σ) (t : Thread) (op : Op σ) :
    Option Section × List (Thread × Op σ) :=
  match op with
  | .start min_level max_level => (some ⟨min_level, max_level, []⟩, [])
  | .discard => (Option.none, [])
  | .commit => (Option.none, ((opened.map Section.held).getD []).map fun entry => (t, entry.op))
  | op => setAside opened lctx t op

/-- The calls of a run without buffers, which starts in `g`. -/
def unbuffered (opened : Option Section) (g : Globals σ) : List (Thread × Op σ) → List (Thread × Op σ)
  | [] => []
  | (t, op) :: ops =>
    let (opened, calls) := unbufferedStep opened (getCurrentThreadContext g t).1 t op
    calls ++ match run g calls with
      | some (g, _) => unbuffered opened g ops
      | Option.none => []

/-- The buffer has what the calls have set aside. -/
def Matches (opened : Option Section) (g : Globals σ) : Prop :=
  match opened with
  | some current => g.log_buffer = some current.held ∧ g.logging_into_buffer = true ∧
      g.min_log_into_buffer_level = current.min_level ∧ g.max_log_into_buffer_level = current.max_level
  | Option.none => g.log_buffer = Option.none ∧ g.logging_into_buffer = false

/-! ## Runs -/

theorem run_append (g : Globals σ) (ops more : List (Thread × Op σ)) :
    run g (ops ++ more) = (run g ops).bind fun p => (run p.1 more).map fun q => (q.1, p.2 ++ q.2) := by
  induction ops generalizing g with
  | nil => exact Option.map_id'.symm
  | cons call ops ih =>
    obtain ⟨t, op⟩ := call
    cases hstep : step g t op with
    | none => simp [run, hstep]
    | some first =>
      cases hrun : run first.1 ops with
      | none => simp [run, hstep, ih, hrun]
      | some rest => cases hmore : run rest.1 more <;> simp [run, hstep, ih, hrun, hmore]

theorem run_single (g : Globals σ) (t : Thread) (op : Op σ) : run g [(t, op)] = step g t op := by
  cases h : step g t op with
  | none => simp [run, h]
  | some p => simp [run, h]

variable {g g' : Globals σ} {t : Thread} {msg : Bytes} {level : LogLevel} {events : List Event}

theorem run_cons_eq {op : Op σ} {p : Globals σ × List Event} (h : step g t op = some p) (ops : List (Thread × Op σ)) :
    run g ((t, op) :: ops) = (run p.1 ops).map fun q => (q.1, p.2 ++ q.2) := by
  have happend := run_append g [(t, op)] ops
  rwa [run_single, h] at happend

theorem run_quietly {op : Op σ} (h : step g t op = some (g', [])) (ops : List (Thread × Op σ)) :
    run g ((t, op) :: ops) = run g' ops :=
  (run_cons_eq h ops).trans Option.map_id'

/-! ## One call -/

theorem getCurrentThreadContext_plain (g : Globals σ) (t : Thread) :
    getCurrentThreadContext g.plain t = ((getCurrentThreadContext g t).1, (getCurrentThreadContext g t).2.plain) := by
  have hcontexts : g.plain.contexts t = g.contexts t := rfl
  simp only [getCurrentThreadContext, hcontexts]
  cases g.contexts t with
  | none => rfl
  | some lctx => rfl

theorem getCurrentThreadContext_fst (g : Globals σ) (t : Thread) :
    (getCurrentThreadContext g t).1 = (g.contexts t).getD g.newContext := by
  unfold getCurrentThreadContext
  cases g.contexts t with
  | none => rfl
  | some lctx => rfl

theorem getCurrentThreadContext_again (g : Globals σ) (t : Thread) :
    getCurrentThreadContext (getCurrentThreadContext g t).2 t = getCurrentThreadContext g t := by
  cases h : g.contexts t with
  | none => simp [getCurrentThreadContext, h, Globals.setContext]
  | some lctx => simp [getCurrentThreadContext, h]

theorem getCurrentThreadContext_sets (g : Globals σ) (t : Thread) :
    (getCurrentThreadContext g t).2 = g.setContext t (some (getCurrentThreadContext g t).1) := by
  cases h : g.contexts t with
  | none => simp only [getCurrentThreadContext, h]
  | some lctx =>
    have hcontexts : g.contexts = fun t' => if t' = t then some lctx else g.contexts t' := by
      funext t'
      split_ifs with ht
      · rw [ht, h]
      · rfl
    simp only [getCurrentThreadContext, h, Globals.setContext, ← hcontexts]

theorem buffers_context (g : Globals σ) (t : Thread) (level : LogLevel) :
    (getCurrentThreadContext g t).2.buffers level = g.buffers level := by
  rw [getCurrentThreadContext_sets]
  rfl

theorem modify_plain (g : Globals σ) (t : Thread) (f : LoggingContext σ → LoggingContext σ) :
    g.plain.modify t f = (g.modify t f).plain := by
  simp only [Globals.modify, getCurrentThreadContext_plain]
  rfl

/-- A held message leaves its call nothing to do but to look at the context. -/
theorem vLogNoFormat_held (hheld : g.holds t level) (h : vLogNoFormat g t level msg = some (g', events)) :
    events = [] ∧ g'.plain = (getCurrentThreadContext g.plain t).2 := by
  obtain ⟨hwould, hbuffers⟩ := Bool.and_eq_true_iff.mp hheld
  simp only [vLogNoFormat, hwould, buffers_context, hbuffers, Bool.true_eq_false, if_false, if_true,
    Option.map_eq_some_iff] at h
  obtain ⟨entries, -, heq⟩ := h
  cases heq
  rw [getCurrentThreadContext_plain]
  exact ⟨rfl, rfl⟩

theorem vLogNoFormat_through (hheld : g.holds t level = false) (msg : Bytes) :
    vLogNoFormat g.plain t level msg = (vLogNoFormat g t level msg).map fun p => (p.1.plain, p.2) := by
  simp only [vLogNoFormat, getCurrentThreadContext_plain]
  cases hwould : (getCurrentThreadContext g t).1.wouldLog level with
  | false => rfl
  | true =>
    have hbuffers : g.buffers level = false := by
      simpa [Globals.holds, hwould] using hheld
    simp only [buffers_context, hbuffers, Bool.true_eq_false, Bool.false_eq_true, if_false]
    change Option.map _ (emit (getCurrentThreadContext g t).2 _ level msg) = _
    rw [Option.map_map]
    rfl

theorem vLogNoFormat_context (g : Globals σ) (t : Thread) (level : LogLevel) (msg : Bytes) :
    vLogNoFormat (getCurrentThreadContext g t).2 t level msg = vLogNoFormat g t level msg := by
  simp only [vLogNoFormat, getCurrentThreadContext_again]

theorem logRaw_eq {rawPrefix buf : Bytes} (hlen : ¬ 4096 < buf.length) :
    logRaw g t level rawPrefix buf =
      match (Op.logRaw level rawPrefix buf).message (getCurrentThreadContext g t).1 with
      | some entry => vLogNoFormat g t entry.level entry.msg
      | Option.none => some ((getCurrentThreadContext g t).2, []) := by
  simp only [logRaw, hlen, if_false, Op.message, vLogNoFormat_context]
  split_ifs
  · rfl
  · rfl

theorem vLogNoFormat_flag (h : vLogNoFormat g t level msg = some (g', events)) :
    g'.logging_into_buffer = g.logging_into_buffer := by
  have hflag : (getCurrentThreadContext g t).2.logging_into_buffer = g.logging_into_buffer := by
    rw [getCurrentThreadContext_sets]
    rfl
  simp only [vLogNoFormat] at h
  split_ifs at h
  · cases h
    exact hflag
  · obtain ⟨entries, -, heq⟩ := Option.map_eq_some_iff.mp h
    cases heq
    exact hflag
  · obtain ⟨p, -, heq⟩ := Option.map_eq_some_iff.mp h
    cases heq
    exact hflag

theorem holds_of_flag (hflag : g.logging_into_buffer = false) (t : Thread) (level : LogLevel) :
    g.holds t level = false := by
  simp [Globals.holds, Globals.buffers, hflag]

theorem commitLoop_plain (hflag : g.logging_into_buffer = false) (t : Thread) (entries : List LogEntry) :
    run g.plain (entries.map fun entry => (t, entry.op)) = (commitLoop g t entries).map fun p => (p.1.plain, p.2) := by
  induction entries generalizing g with
  | nil => rfl
  | cons entry entries ih =>
    have hlog : step g.plain t entry.op = _ := vLogNoFormat_through (holds_of_flag hflag t entry.level) entry.msg
    cases hfirst : vLogNoFormat g t entry.level entry.msg with
    | none => simp [run, commitLoop, hlog, hfirst]
    | some first =>
      have hnext := ih ((vLogNoFormat_flag hfirst).trans hflag)
      cases hrest : commitLoop first.1 t entries <;> simp [run, commitLoop, hlog, hfirst, hnext, hrest]

theorem commitLogBuffer_plain (h : commitLogBuffer g t = some (g', events)) :
    run g.plain ((g.log_buffer.getD []).map fun entry => (t, entry.op)) = some (g'.plain, events) ∧
      Matches Option.none g' := by
  unfold commitLogBuffer at h
  cases hbuffer : g.log_buffer with
  | none => simp [hbuffer] at h
  | some entries =>
    simp only [hbuffer] at h
    split_ifs at h with hflag
    obtain ⟨p, hloop, heq⟩ := Option.map_eq_some_iff.mp h
    cases heq
    have hplain := commitLoop_plain (g := { g with log_buffer := some entries, logging_into_buffer := false }) rfl t entries
    rw [hloop] at hplain
    exact ⟨hplain, rfl, rfl⟩

/-! ## Sections and buffers -/

section Matching

variable {opened : Option Section} {g g' : Globals σ} {t : Thread} {level : LogLevel} {events : List Event}

theorem holds_eq (hmatches : Matches opened g) :
    g.holds t level = ((getCurrentThreadContext g t).1.wouldLog level && opened.any (·.takes level)) := by
  rw [Globals.holds]
  cases opened with
  | none =>
    obtain ⟨-, hflag⟩ := hmatches
    simp [Globals.buffers, hflag]
  | some current =>
    obtain ⟨-, hflag, hmin, hmax⟩ := hmatches
    simp [Globals.buffers, Section.takes, hflag, hmin, hmax]

theorem Matches.of_same (hmatches : Matches opened g) (hbuffer : g'.log_buffer = g.log_buffer)
    (hflag : g'.logging_into_buffer = g.logging_into_buffer)
    (hmin : g'.min_log_into_buffer_level = g.min_log_into_buffer_level)
    (hmax : g'.max_log_into_buffer_level = g.max_log_into_buffer_level) : Matches opened g' := by
  cases opened with
  | none => exact ⟨hbuffer.trans hmatches.1, hflag.trans hmatches.2⟩
  | some current =>
    obtain ⟨h₁, h₂, h₃, h₄⟩ := hmatches
    exact ⟨hbuffer.trans h₁, hflag.trans h₂, hmin.trans h₃, hmax.trans h₄⟩

theorem Matches.context (hmatches : Matches opened g) (t : Thread) : Matches opened (getCurrentThreadContext g t).2 := by
  rw [getCurrentThreadContext_sets]
  exact hmatches.of_same rfl rfl rfl rfl

theorem Matches.modify (hmatches : Matches opened g) (t : Thread) (f : LoggingContext σ → LoggingContext σ) :
    Matches opened (g.modify t f) :=
  (hmatches.context t).of_same rfl rfl rfl rfl

theorem vLogNoFormat_sets {current : Section} (hmatches : Matches (some current) g) (hheld : g.holds t level)
    (h : vLogNoFormat g t level msg = some (g', events)) :
    Matches (some { current with held := current.held ++ [⟨level, msg⟩] }) g' := by
  obtain ⟨hwould, hbuffers⟩ := Bool.and_eq_true_iff.mp hheld
  obtain ⟨hbuffer, hflag, hmin, hmax⟩ := hmatches.context t
  simp only [vLogNoFormat, hwould, buffers_context, hbuffers, hbuffer, Bool.true_eq_false, if_false, if_true,
    Option.map_some, Option.some.injEq, Prod.mk.injEq] at h
  obtain ⟨rfl, -⟩ := h
  exact ⟨rfl, hflag, hmin, hmax⟩

theorem vLogNoFormat_matches (hmatches : Matches opened g) (hheld : g.holds t level = false)
    (h : vLogNoFormat g t level msg = some (g', events)) : Matches opened g' := by
  have hcontext := hmatches.context t
  simp only [vLogNoFormat] at h
  split_ifs at h with hwould hbuffers
  · cases h
    exact hcontext
  · rw [buffers_context] at hbuffers
    simp [Globals.holds, hwould, hbuffers] at hheld
  · obtain ⟨p, -, heq⟩ := Option.map_eq_some_iff.mp h
    cases heq
    exact hcontext.of_same rfl rfl rfl rfl

theorem vLogNoFormat_unbuffered (hmatches : Matches opened g) (h : vLogNoFormat g t level msg = some (g', events)) :
    (∃ current, opened = some current ∧
        ((getCurrentThreadContext g.plain t).1.wouldLog level && current.takes level) = true ∧ events = [] ∧
        g'.plain = (getCurrentThreadContext g.plain t).2 ∧
        Matches (some { current with held := current.held ++ [⟨level, msg⟩] }) g') ∨
      ((getCurrentThreadContext g.plain t).1.wouldLog level && opened.any (·.takes level)) = false ∧
        vLogNoFormat g.plain t level msg = some (g'.plain, events) ∧ Matches opened g' := by
  have hholds : g.holds t level = _ := holds_eq hmatches
  have hsame : (getCurrentThreadContext g.plain t).1 = (getCurrentThreadContext g t).1 := by
    rw [getCurrentThreadContext_plain]
  rw [hsame, ← hholds]
  cases hheld : g.holds t level with
  | true =>
    rw [hheld] at hholds
    cases opened with
    | none => simp at hholds
    | some current =>
      obtain ⟨hevents, hplain⟩ := vLogNoFormat_held hheld h
      exact .inl ⟨current, rfl, hholds.symm, hevents, hplain, vLogNoFormat_sets hmatches hheld h⟩
  | false =>
    refine .inr ⟨rfl, ?_, vLogNoFormat_matches hmatches hheld h⟩
    rw [vLogNoFormat_through hheld, h, Option.map_some]

end Matching

/-! ## Whole runs -/

section Steps

variable {opened : Option Section} {g g' : Globals σ} {t : Thread} {events : List Event} (hmatches : Matches opened g)
include hmatches

theorem message_unbuffered {op : Op σ} {entry : LogEntry}
    (hmessage : op.message (getCurrentThreadContext g.plain t).1 = some entry)
    (hstep : step g.plain t op = vLogNoFormat g.plain t entry.level entry.msg)
    (h : vLogNoFormat g t entry.level entry.msg = some (g', events)) :
    run g.plain (setAside opened (getCurrentThreadContext g.plain t).1 t op).2 = some (g'.plain, events) ∧
      Matches (setAside opened (getCurrentThreadContext g.plain t).1 t op).1 g' := by
  rcases vLogNoFormat_unbuffered hmatches h with ⟨current, rfl, htakes, rfl, hplain, hnext⟩ | ⟨hno, hthrough, hnext⟩
  · have hsets : Section.sets (some current) (getCurrentThreadContext g.plain t).1 op = some (current, entry) := by
      simp only [Section.sets, hmessage, Option.bind_eq_bind, Option.bind_some, htakes, if_true]
    rw [setAside, hsets]
    exact ⟨(run_single _ _ _).trans (congrArg (fun g => some (g, [])) hplain.symm), hnext⟩
  · have hsets : Section.sets opened (getCurrentThreadContext g.plain t).1 op = Option.none := by
      cases opened with
      | none => rfl
      | some current =>
        rw [Option.any_some] at hno
        simp only [Section.sets, hmessage, Option.bind_eq_bind, Option.bind_some, hno, Bool.false_eq_true, if_false]
    rw [setAside, hsets]
    exact ⟨(run_single _ _ _).trans (hstep.trans hthrough), hnext⟩

theorem other_unbuffered {op : Op σ} (hmessage : op.message (getCurrentThreadContext g.plain t).1 = Option.none)
    (hstep : step g.plain t op = some (g'.plain, events)) (hnext : Matches opened g') :
    run g.plain (setAside opened (getCurrentThreadContext g.plain t).1 t op).2 = some (g'.plain, events) ∧
      Matches (setAside opened (getCurrentThreadContext g.plain t).1 t op).1 g' := by
  have hsets : Section.sets opened (getCurrentThreadContext g.plain t).1 op = Option.none := by
    cases opened with
    | none => rfl
    | some current => simp only [Section.sets, hmessage, Option.bind_eq_bind, Option.bind_some, Option.bind_none]
  rw [setAside, hsets]
  exact ⟨(run_single _ _ _).trans hstep, hnext⟩

theorem step_unbuffered {op : Op σ} (h : step g t op = some (g', events)) :
    run g.plain (unbufferedStep opened (getCurrentThreadContext g.plain t).1 t op).2 = some (g'.plain, events) ∧
      Matches (unbufferedStep opened (getCurrentThreadContext g.plain t).1 t op).1 g' := by
  have hcontext : (getCurrentThreadContext g.plain t).1 = (getCurrentThreadContext g t).1 := by
    rw [getCurrentThreadContext_plain]
  have hmodify : ∀ f : LoggingContext σ → LoggingContext σ,
      some (g.plain.modify t f, []) = some ((g.modify t f).plain, ([] : List Event)) :=
    fun f => congrArg (fun g => some (g, [])) (modify_plain g t f)
  cases op with
  | log level msg => exact message_unbuffered hmatches (show _ = some (⟨level, msg⟩ : LogEntry) from rfl) rfl h
  | logRaw level rawPrefix buf =>
    have hlen : ¬ 4096 < buf.length := fun hlen => by simp [step, logRaw, hlen] at h
    rw [step, logRaw_eq hlen, ← hcontext] at h
    have hplain : step g.plain t (.logRaw level rawPrefix buf) = _ := logRaw_eq hlen
    cases hmessage : (Op.logRaw level rawPrefix buf).message (getCurrentThreadContext g.plain t).1 with
    | some entry =>
      rw [hmessage] at h hplain
      exact message_unbuffered hmatches hmessage hplain h
    | none =>
      rw [hmessage] at h hplain
      cases h
      refine other_unbuffered hmatches hmessage ?_ (hmatches.context t)
      rw [hplain, getCurrentThreadContext_plain]
  | systemLog level msg =>
    obtain ⟨e, he, heq⟩ := Option.map_eq_some_iff.mp h
    cases heq
    exact other_unbuffered hmatches rfl (congrArg (Option.map fun e => (g.plain, [e])) he) hmatches
  | start min_level max_level =>
    obtain ⟨g₁, hstart, heq⟩ := Option.bind_eq_some_iff.mp h
    cases heq
    unfold startLoggingIntoBuffer at hstart
    split_ifs at hstart
    cases hstart
    exact ⟨rfl, rfl, rfl, rfl, rfl⟩
  | discard =>
    cases h
    exact ⟨rfl, rfl, rfl⟩
  | commit =>
    have hbuffer : (opened.map Section.held).getD [] = g.log_buffer.getD [] := by
      cases opened with
      | none => rw [hmatches.1]; rfl
      | some current => rw [hmatches.1]; rfl
    simp only [unbufferedStep, hbuffer]
    exact commitLogBuffer_plain h
  | wouldLog =>
    cases h
    refine other_unbuffered hmatches rfl ?_ (hmatches.context t)
    exact congrArg (fun p => some (p.2, [])) (getCurrentThreadContext_plain g t)
  | privSetContext pctx | privSetLevels log_level report_level | setColor enabled =>
    cases h
    exact other_unbuffered hmatches rfl (hmodify _) (hmatches.modify t _)
  | setGlobalLevel level =>
    cases h
    have hset : Matches opened { g with global_level := level } := hmatches.of_same rfl rfl rfl rfl
    refine other_unbuffered hmatches rfl (congrArg (fun g => some (g, [])) ?_) ?_
    · unfold logSetGlobalLevel
      simp only [loggingPrivSetLevels]
      split_ifs with h₁ h₂ h₂
      · exact modify_plain { g with global_level := level } t _
      · exact absurd h₁ h₂
      · exact absurd h₂ h₁
      · exact modify_plain { g with global_level := level } t _
    · unfold logSetGlobalLevel
      simp only [loggingPrivSetLevels]
      split_ifs
      · exact hset.modify t _
      · exact hset.modify t _
  | setGlobalSystemLogLevel level =>
    obtain ⟨g₁, hset, heq⟩ := Option.bind_eq_some_iff.mp h
    cases heq
    unfold logSetGlobalSystemLogLevel at hset
    split_ifs at hset with hlevel
    cases hset
    have hset : Matches opened { g with global_system_log_level := level } := hmatches.of_same rfl rfl rfl rfl
    refine other_unbuffered hmatches rfl ?_ (hset.modify t _)
    simp only [step, logSetGlobalSystemLogLevel, if_neg hlevel]
    exact congrArg (fun g => some (g, [])) (modify_plain { g with global_system_log_level := level } t _)
  | unsetGlobalSystemLogLevel =>
    cases h
    have hset : Matches opened { g with global_system_log_level := .nothing } := hmatches.of_same rfl rfl rfl rfl
    refine other_unbuffered hmatches rfl (congrArg (fun g => some (g, [])) ?_) (hset.modify t _)
    exact modify_plain { g with global_system_log_level := .nothing } t fun lctx =>
      { lctx with log_level := g.global_level, report_level := g.global_level }
  | freeContext | setVPrefix vPrefix | setAgentType type | enableTimestamps enable | tick now =>
    cases h
    exact other_unbuffered hmatches rfl rfl (hmatches.of_same rfl rfl rfl rfl)

theorem run_of_matches {ops : List (Thread × Op σ)} (h : run g ops = some (g', events)) :
    run g.plain (unbuffered opened g.plain ops) = some (g'.plain, events) := by
  induction ops generalizing opened g events with
  | nil =>
    cases h
    rfl
  | cons call ops ih =>
    obtain ⟨t, op⟩ := call
    obtain ⟨⟨g₁, first⟩, hstep, hrun⟩ := Option.bind_eq_some_iff.mp h
    obtain ⟨⟨g₂, rest⟩, hrest, heq⟩ := Option.bind_eq_some_iff.mp hrun
    cases heq
    obtain ⟨hfirst, hnext⟩ := step_unbuffered hmatches hstep
    simp only [unbuffered, run_append, hfirst, Option.bind_some, ih hnext hrest, Option.map_some]

end Steps

/-- A run with buffers shows the events of a run without, in which what was set aside comes at its commit. -/
theorem run_unbuffered {g g' : Globals σ} (hbuffer : g.log_buffer = Option.none) (hflag : g.logging_into_buffer = false)
    {ops : List (Thread × Op σ)} {events : List Event} (h : run g ops = some (g', events)) :
    run g.plain (unbuffered Option.none g.plain ops) = some (g'.plain, events) :=
  have hmatches : Matches Option.none g := ⟨hbuffer, hflag⟩
  run_of_matches hmatches h

/-- The values at the start of the program. -/
def Globals.initial (param : σ) (now : Bytes) : Globals σ :=
  ⟨[], ascii "generic", false, now, param, .notice, .nothing, fun _ => Option.none, Option.none, false, .nothing, .nothing⟩

/-- What is held back shows after what is not, with the levels of the thread that commits. -/
theorem run_unbuffered_commit : ∃ g',
    run (Globals.initial () []) [(1, .start .notice .notice), (1, .log .notice (ascii "a")), (2, .log .err (ascii "b")),
      (2, .privSetLevels .nothing .notice), (2, .commit)] =
      some (g', [.console (ascii "   error: b\n"), .syslog 3 (ascii "CFEngine(generic)  b\n"),
        .console (ascii "  notice: a\n")]) ∧
    run (Globals.initial () []).plain (unbuffered Option.none (Globals.initial () []).plain
      [(1, .start .notice .notice), (1, .log .notice (ascii "a")), (2, .log .err (ascii "b")),
        (2, .privSetLevels .nothing .notice), (2, .commit)]) =
      some (g'.plain, [.console (ascii "   error: b\n"), .syslog 3 (ascii "CFEngine(generic)  b\n"),
        .console (ascii "  notice: a\n")]) :=
  ⟨_, rfl, run_unbuffered rfl rfl rfl⟩

/-! ## A section that is logged into a buffer -/

def LogEntry.inside (min_level max_level : LogLevel) (entry : LogEntry) : Bool :=
  min_level ≤ entry.level ∧ entry.level ≤ max_level

def logs (t : Thread) (entries : List LogEntry) : List (Thread × Op σ) := entries.map fun entry => (t, entry.op)

section Context

variable {g g' : Globals σ} {t : Thread} {lctx : LoggingContext σ} (hcontext : g.contexts t = some lctx)
include hcontext

theorem vLogNoFormat_of_context (level : LogLevel) (msg : Bytes) :
    vLogNoFormat g t level msg =
      if lctx.wouldLog level = false then some (g, [])
      else if g.buffers level then
        g.log_buffer.map fun entries => ({ g with log_buffer := some (entries ++ [⟨level, msg⟩]) }, [])
      else (emit g lctx level msg).map fun (param, events) => ({ g with param := param }, events) := by
  have hcurrent : getCurrentThreadContext g t = (lctx, g) := by simp only [getCurrentThreadContext, hcontext]
  simp only [vLogNoFormat, hcurrent]

/-- What is not held back changes nothing but what belongs to the hooks. -/
theorem vLogNoFormat_param (hbuffers : g.buffers level = false) (h : vLogNoFormat g t level msg = some (g', events)) :
    ∃ param, g' = { g with param := param } := by
  simp only [vLogNoFormat_of_context hcontext, hbuffers, Bool.false_eq_true, if_false] at h
  split_ifs at h
  · cases h
    exact ⟨g.param, rfl⟩
  · obtain ⟨p, -, heq⟩ := Option.map_eq_some_iff.mp h
    cases heq
    exact ⟨p.1, rfl⟩

theorem run_logs_skip {entry : LogEntry} (hflag : g.logging_into_buffer = false) (hskip : lctx.wouldLog entry.level = false)
    (before after : List LogEntry) : run g (logs t (before ++ entry :: after)) = run g (logs t (before ++ after)) := by
  induction before generalizing g with
  | nil =>
    have hentry : step g t entry.op = some (g, []) :=
      (vLogNoFormat_of_context hcontext entry.level entry.msg).trans (if_pos hskip)
    exact run_quietly hentry (logs t after)
  | cons first before ih =>
    cases hfirst : step g t first.op with
    | none => simp [logs, run, hfirst]
    | some p =>
      have hbuffers : g.buffers first.level = false := by simp [Globals.buffers, hflag]
      obtain ⟨param, hparam⟩ := vLogNoFormat_param hcontext hbuffers hfirst
      have hrest : run p.1 (logs t (before ++ entry :: after)) = run p.1 (logs t (before ++ after)) := by
        rw [hparam]
        exact ih hcontext hflag
      exact (run_cons_eq hfirst _).trans ((congrArg _ hrest).trans (run_cons_eq hfirst _).symm)

/-- With entries in the buffer: the rest of the section, and its commit. -/
theorem run_section {min_level max_level : LogLevel} {held : List LogEntry} (hbuffer : g.log_buffer = some held)
    (hflag : g.logging_into_buffer = true) (hmin : g.min_log_into_buffer_level = min_level)
    (hmax : g.max_log_into_buffer_level = max_level) (entries : List LogEntry) :
    (run g (logs t entries ++ [(t, .commit)])).map (fun p => (p.1.plain, p.2)) =
      run g.plain (logs t (entries.filter (fun entry => !entry.inside min_level max_level) ++
        (held ++ entries.filter (LogEntry.inside min_level max_level)))) := by
  induction entries generalizing g held with
  | nil =>
    have hloop := commitLoop_plain (g := { g with log_buffer := some held, logging_into_buffer := false }) rfl t held
    have hcommit : step g t .commit =
        (commitLoop { g with log_buffer := some held, logging_into_buffer := false } t held).map
          fun p => (discardLogBuffer p.1, p.2) := by
      simp only [step, commitLogBuffer, hbuffer, hflag, if_true]
    rw [logs, List.map_nil, List.nil_append, run_single, hcommit, Option.map_map]
    rw [List.filter_nil, List.filter_nil, List.nil_append, List.append_nil]
    exact hloop.symm
  | cons entry entries ih =>
    have hsplit : logs (σ := σ) t (entry :: entries) ++ [(t, .commit)] =
        (t, entry.op) :: (logs t entries ++ [(t, .commit)]) := rfl
    rw [hsplit]
    cases hinside : entry.inside min_level max_level with
    | true =>
      have hbuffers : g.buffers entry.level = true := by
        simpa [Globals.buffers, LogEntry.inside, hflag, hmin, hmax] using hinside
      rw [List.filter_cons_of_neg (by simp [hinside]), List.filter_cons_of_pos (by simp [hinside])]
      cases hwould : lctx.wouldLog entry.level with
      | true =>
        have hentry : step g t entry.op = some ({ g with log_buffer := some (held ++ [entry]) }, []) :=
          (vLogNoFormat_of_context hcontext entry.level entry.msg).trans (by simp [hwould, hbuffers, hbuffer])
        have hrest := ih (g := { g with log_buffer := some (held ++ [entry]) }) hcontext rfl hflag hmin hmax
        rw [List.append_assoc held] at hrest
        rw [run_quietly hentry, hrest]
        rfl
      | false =>
        have hentry : step g t entry.op = some (g, []) :=
          (vLogNoFormat_of_context hcontext entry.level entry.msg).trans (if_pos hwould)
        rw [run_quietly hentry, ih hcontext hbuffer hflag hmin hmax, ← List.append_assoc, ← List.append_assoc]
        exact (run_logs_skip (g := g.plain) hcontext rfl hwould _ _).symm
    | false =>
      have hbuffers : g.buffers entry.level = false := by
        simpa [Globals.buffers, LogEntry.inside, hflag, hmin, hmax] using hinside
      have hthrough : step g.plain t entry.op = (step g t entry.op).map fun p => (p.1.plain, p.2) :=
        vLogNoFormat_through (by simp [Globals.holds, hbuffers]) entry.msg
      rw [List.filter_cons_of_pos (by simp [hinside]), List.filter_cons_of_neg (by simp [hinside])]
      cases hentry : step g t entry.op with
      | none => simp [logs, run, hentry, hthrough]
      | some p =>
        obtain ⟨param, hparam⟩ := vLogNoFormat_param hcontext hbuffers hentry
        have hplain : step g.plain t entry.op = some (p.1.plain, p.2) := hthrough.trans (by rw [hentry, Option.map_some])
        have hrest := ih (g := { g with param := param }) hcontext hbuffer hflag hmin hmax
        rw [← hparam] at hrest
        have hcons := run_cons_eq hplain (logs t (entries.filter (fun entry => !entry.inside min_level max_level) ++
          (held ++ entries.filter (LogEntry.inside min_level max_level))))
        rw [← hrest, Option.map_map] at hcons
        rw [run_cons_eq hentry, Option.map_map]
        exact hcons.symm

end Context

theorem run_logs_context (g : Globals σ) (t : Thread) {entries : List LogEntry} (hne : entries ≠ [])
    (more : List (Thread × Op σ)) :
    run (getCurrentThreadContext g t).2 (logs t entries ++ more) = run g (logs t entries ++ more) := by
  obtain ⟨entry, entries, rfl⟩ := List.exists_cons_of_ne_nil hne
  have hfirst : step (getCurrentThreadContext g t).2 t entry.op = step g t entry.op := by
    simp only [step, LogEntry.op, vLogNoFormat, getCurrentThreadContext_again]
  simp only [logs, List.map_cons, List.cons_append, run, hfirst]

/-- A thread that logs into a buffer and commits it prints what is not for the buffer, then what is. -/
theorem buffered_section {g : Globals σ} (hbuffer : g.log_buffer = Option.none) (hflag : g.logging_into_buffer = false)
    (t : Thread) (min_level max_level : LogLevel) (entries : List LogEntry) :
    (run g ((t, .start min_level max_level) :: (logs t entries ++ [(t, .commit)]))).map (fun p => (p.1.plain, p.2)) =
      run g.plain (logs t (entries.filter (fun entry => !entry.inside min_level max_level) ++
        entries.filter (LogEntry.inside min_level max_level))) := by
  let started : Globals σ :=
    { g with log_buffer := some [], logging_into_buffer := true, min_log_into_buffer_level := min_level,
             max_log_into_buffer_level := max_level }
  have hstart : step g t (.start min_level max_level) = some (started, []) := by
    simp [step, startLoggingIntoBuffer, hbuffer, hflag, quietly, started]
  rw [run_quietly hstart]
  rcases eq_or_ne entries [] with rfl | hne
  · rfl
  · obtain ⟨entry, hentry⟩ := List.exists_mem_of_ne_nil entries hne
    have hne' : entries.filter (fun entry => !entry.inside min_level max_level) ++
        entries.filter (LogEntry.inside min_level max_level) ≠ [] := by
      refine List.ne_nil_of_mem (a := entry) ?_
      cases hinside : entry.inside min_level max_level <;> simp [hentry, hinside]
    have hplain := run_logs_context g.plain t hne' []
    rw [List.append_nil] at hplain
    rw [← run_logs_context started t hne, ← hplain]
    have hlctx : (getCurrentThreadContext started t).1 = (getCurrentThreadContext g.plain t).1 := by
      rw [getCurrentThreadContext_fst, getCurrentThreadContext_fst]
      rfl
    rw [getCurrentThreadContext_sets, getCurrentThreadContext_sets, run_section (if_pos rfl) rfl rfl rfl rfl, List.nil_append,
      hlctx]
    rfl

/-- The notice waits for the commit, in front of the buffer it is printed after the error behind it. -/
theorem buffered_section_notices :
    ((run (Globals.initial () []) ((1, .start .notice .notice) :: (logs 1 [⟨.notice, ascii "n"⟩, ⟨.err, ascii "e"⟩] ++
      [(1, .commit)]))).map fun p => (p.1.plain, p.2)) =
        run (Globals.initial () []).plain (logs 1 [⟨.err, ascii "e"⟩, ⟨.notice, ascii "n"⟩]) ∧
      (run (Globals.initial () []) ((1, .start .notice .notice) :: logs 1 [⟨.notice, ascii "n"⟩, ⟨.err, ascii "e"⟩])).map
        (fun p => p.1.log_buffer) = some (some [⟨.notice, ascii "n"⟩]) :=
  ⟨buffered_section rfl rfl 1 .notice .notice [⟨.notice, ascii "n"⟩, ⟨.err, ascii "e"⟩], rfl⟩

end Libntech.Logging
