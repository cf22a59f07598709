import SphereVFS.LockAccounting
import Mathlib.Data.List.Nodup

/-!
# SphereVFS.LockWakeups

The condition variable of a lock: who sleeps in `vfs_lock`, and who was signalled since.

A broadcast of `vfs_unlock` signals every thread that sleeps on the lock of its key; a thread that runs a
section and waits again sleeps anew. The wait conditions change to false only under a broadcast, so a thread
that was not signalled still has to wait. Requests per epoch wait for the pending flag as well, and the flag
is set only while a global request sleeps.
-/

namespace SphereVFS
namespace Lock

variable {T : Type}

def WaitCondition (f : FileLockState T) (r : Request T) : Prop :=
  match r.phase with
  | .start => False
  | .waitGlobal => f.globalHeld = true ∨ 0 < f.totalEpochHolders
  | .waitFirst => f.globalHeld = true ∨ f.globalPending = true
  | .waitSecond => perEpochHasHolders f r.epoch = true

def Request.Blocked (r : Request T) : Prop := r.phase ≠ .start

instance Request.Blocked.decidable (r : Request T) : Decidable r.Blocked :=
  inferInstanceAs (Decidable (r.phase ≠ .start))

structure Signals (T : Type) where
  sys : System T
  signalled : List T

def Signals.init : Signals T := ⟨System.init, []⟩

variable [DecidableEq T]

def blockedOn (s : System T) (key : Int) : List T :=
  (s.requests.filter fun r => decide (r.key = key ∧ r.Blocked)).map Request.thread

def Signals.step (w : Signals T) (ev : Event T) : Signals T :=
  let sys := Lock.step w.sys ev
  match ev with
  | .enter _ _ _ => ⟨sys, w.signalled⟩
  | .resume r => ⟨sys, w.signalled.filter fun t => decide (t ≠ r.thread)⟩
  | .unlock t key epoch =>
    match (w.sys.table key).bind (unlockSection t epoch) with
    | none => ⟨sys, w.signalled⟩
    | some f =>
      -- the global lock is signalled when the last of its levels goes
      if epoch = 0 ∧ f.globalDepth ≠ 0 then ⟨sys, w.signalled⟩
      else ⟨sys, blockedOn w.sys key ++ w.signalled⟩

/-- Threads run one call at a time, and unlock what they locked. A thread may also wake without a signal. -/
def Signals.Enabled (w : Signals T) (ev : Event T) : Prop := Lock.Enabled w.sys ev

instance Signals.Enabled.decidable (w : Signals T) (ev : Event T) : Decidable (w.Enabled ev) :=
  Lock.Enabled.decidable w.sys ev

/-! ## Conditions under a section -/

omit [DecidableEq T] in
theorem SectionStep.keeps_waiting {t : T} {epoch : Int} {phase : Phase} {f : FileLockState T}
    {result : Outcome × FileLockState T} (h : SectionStep t epoch phase f result)
    (hflag : f.globalHeld = true ↔ 0 < f.globalDepth) {q : Request T} (hq : WaitCondition f q) :
    WaitCondition result.2 q := by
  obtain ⟨u, key, e, sleeping⟩ := q
  cases h with
  | reenter hepoch hpos =>
    cases sleeping with
    | start => exact hq.elim
    | waitGlobal => exact .inl (hflag.2 hpos)
    | waitFirst => exact .inl (hflag.2 hpos)
    | waitSecond => exact hq
  | globalWait pending hepoch hbusy hpending =>
    cases sleeping with
    | start => exact hq.elim
    | waitGlobal => exact hq
    | waitFirst => exact hq.imp_right hpending
    | waitSecond => exact hq
  | global hepoch hfree hdrained =>
    cases sleeping with
    | start => exact hq.elim
    | waitGlobal => exact .inl rfl
    | waitFirst => exact .inl rfl
    | waitSecond => exact hq
  | first hepoch hbefore hbusy => exact hq
  | second hepoch hholders => exact hq
  | epoch hepoch hfree hroom =>
    cases sleeping with
    | start => exact hq.elim
    | waitGlobal => exact .inr (Nat.succ_pos _)
    | waitFirst => exact hq
    | waitSecond =>
      change (f.epochs ++ [(epoch, 1)]).any _ = true
      rw [List.any_append, Bool.or_eq_true]
      exact .inl hq
  | overflow hepoch hfree hfull hpassed => exact hq

omit [DecidableEq T] in
theorem SectionStep.sleeps {r : Request T} {f : FileLockState T} {result : Outcome × FileLockState T}
    (h : SectionStep r.thread r.epoch r.phase f result) {phase : Phase} (hres : result.1 = .waits phase) :
    WaitCondition result.2 { r with phase := phase } := by
  cases h with
  | globalWait pending hepoch hbusy hpending =>
    cases hres
    exact hbusy
  | first hepoch hphase hbusy =>
    cases hres
    exact hbusy
  | second hepoch hholders =>
    cases hres
    exact hholders
  | _ => cases hres

/-! ## The invariant -/

structure Signals.Inv (w : Signals T) : Prop where
  locks : Lock.Inv w.sys
  threads : (w.sys.requests.map Request.thread).Nodup
  global : ∀ r ∈ w.sys.requests, r.phase = .waitGlobal → r.epoch = 0
  pending : ∀ key f, w.sys.table key = some f → f.globalPending = true →
    ∃ r ∈ w.sys.requests, r.key = key ∧ r.phase = .waitGlobal
  asleep : ∀ r ∈ w.sys.requests, r.Blocked →
    r.thread ∈ w.signalled ∨ ∃ f, w.sys.table r.key = some f ∧ WaitCondition f r

variable {w : Signals T}

omit [DecidableEq T] in
theorem Signals.Inv.init : (Signals.init : Signals T).Inv := by
  refine ⟨Lock.Inv.init, List.nodup_nil, nofun, ?_, nofun⟩
  intro key f h
  cases h

theorem Signals.Inv.enter (h : w.Inv) {t : T} {key epoch : Int} (hev : w.Enabled (.enter t key epoch)) :
    (w.step (.enter t key epoch)).Inv := by
  have hkeep : ∀ k f, w.sys.table k = some f → ∃ f', (Lock.step w.sys (.enter t key epoch)).table k = some f' ∧
      ∀ q, WaitCondition f q → WaitCondition f' q := by
    intro k f hf
    by_cases hk : k = key
    · subst hk
      refine ⟨findOrCreate (some f), ?_, fun q hq => hq⟩
      rw [← hf]
      exact Function.update_self ..
    · exact ⟨f, (Function.update_of_ne hk ..).trans hf, fun q hq => hq⟩
  refine ⟨h.locks.enter t key epoch, ?_, ?_, ?_, ?_⟩
  · refine List.nodup_cons.2 ⟨fun hmem => ?_, h.threads⟩
    obtain ⟨r, hr, hthread⟩ := List.mem_map.1 hmem
    exact hev r hr hthread
  · intro r hr hphase
    obtain rfl | hr := List.mem_cons.1 hr
    · cases hphase
    · exact h.global r hr hphase
  · intro k f' hf' hpending
    have hold : ∃ f, w.sys.table k = some f ∧ f.globalPending = true := by
      change Function.update w.sys.table key (some (findOrCreate (w.sys.table key))) k = some f' at hf'
      rw [Function.update_apply] at hf'
      split at hf'
      · rename_i hk
        cases hf'
        subst hk
        cases htable : w.sys.table k with
        | none =>
          rw [htable] at hpending
          cases hpending
        | some f =>
          rw [htable] at hpending
          exact ⟨f, rfl, hpending⟩
      · exact ⟨f', hf', hpending⟩
    obtain ⟨f, hf, hpend⟩ := hold
    obtain ⟨r, hr, hkey, hphase⟩ := h.pending k f hf hpend
    exact ⟨r, List.mem_cons_of_mem _ hr, hkey, hphase⟩
  · intro r hr hblocked
    obtain rfl | hr := List.mem_cons.1 hr
    · exact absurd rfl hblocked
    · obtain hsig | ⟨f, hf, hwait⟩ := h.asleep r hr hblocked
      · exact .inl hsig
      · obtain ⟨f', hf', hkeeps⟩ := hkeep r.key f hf
        exact .inr ⟨f', hf', hkeeps r hwait⟩

theorem mem_resumed {s : System T} {r q : Request T} {f : FileLockState T} (htable : s.table r.key = some f) :
    q ∈ (resumeRequest s r).requests ↔ q ∈ s.requests.erase r ∨
      ∃ phase, (lockSection r.thread r.epoch r.phase f).1 = .waits phase ∧ q = { r with phase := phase } := by
  simp only [resumeRequest, htable]
  cases (lockSection r.thread r.epoch r.phase f).1 with
  | acquired => simp
  | waits phase =>
    simp only [List.mem_cons, Outcome.waits.injEq, exists_eq_left']
    exact or_comm
  | overflow => simp

omit [DecidableEq T] in
theorem SectionStep.waits_global {t : T} {epoch : Int} {phase : Phase} {f : FileLockState T}
    {result : Outcome × FileLockState T} (h : SectionStep t epoch phase f result)
    (hres : result.1 = .waits .waitGlobal) : epoch = 0 := by
  cases h with
  | globalWait pending hepoch hbusy hpending => exact hepoch
  | _ => cases hres

omit [DecidableEq T] in
/-- After a section the pending flag was set before, by another call, or is set by a global request that sleeps. -/
theorem SectionStep.pending {t : T} {epoch : Int} {phase : Phase} {f : FileLockState T}
    {result : Outcome × FileLockState T} (h : SectionStep t epoch phase f result)
    (hpending : result.2.globalPending = true) :
    result.1 = .waits .waitGlobal ∨ f.globalPending = true ∧ epoch ≠ 0 := by
  cases h with
  | reenter hepoch hpos => cases hpending
  | globalWait pending hepoch hbusy hset => exact .inl rfl
  | global hepoch hfree hdrained => cases hpending
  | first hepoch hphase hbusy => exact .inr ⟨hpending, hepoch⟩
  | second hepoch hholders => exact .inr ⟨hpending, hepoch⟩
  | epoch hepoch hfree hroom => exact .inr ⟨hpending, hepoch⟩
  | overflow hepoch hfree hfull hpassed => exact .inr ⟨hpending, hepoch⟩

theorem Signals.Inv.resume (h : w.Inv) {r : Request T} (hr : r ∈ w.sys.requests) : (w.step (.resume r)).Inv := by
  obtain ⟨f, htable⟩ := h.locks.table_some hr
  have hsection := lockSection_step r.thread r.epoch r.phase f
  have hnodup : w.sys.requests.Nodup := List.Nodup.of_map _ h.threads
  have hother : ∀ q ∈ w.sys.requests.erase r, q ∈ w.sys.requests ∧ q.thread ≠ r.thread := by
    intro q hq
    have hmem := List.mem_of_mem_erase hq
    refine ⟨hmem, fun hthread => ?_⟩
    have heq := List.inj_on_of_nodup_map h.threads hmem hr hthread
    exact (List.Nodup.mem_erase_iff hnodup).1 hq |>.1 heq
  have hstays : ∀ q ∈ w.sys.requests, q ≠ r → q ∈ w.sys.requests.erase r := fun q hq hne =>
    (List.Nodup.mem_erase_iff hnodup).2 ⟨hne, hq⟩
  have hnew : ∀ k, (w.step (.resume r)).sys.table k = if k = r.key then
      some (lockSection r.thread r.epoch r.phase f).2 else w.sys.table k := by
    intro k
    rw [show (w.step (.resume r)).sys.table = _ from (resumeRequest_spec htable).table, Function.update_apply]
  refine ⟨h.locks.resume hr, ?_, ?_, ?_, ?_⟩
  · show ((resumeRequest w.sys r).requests.map Request.thread).Nodup
    have herase := h.threads.sublist ((List.erase_sublist (a := r)).map Request.thread)
    simp only [resumeRequest, htable]
    cases (lockSection r.thread r.epoch r.phase f).1 with
    | acquired => exact herase
    | waits phase =>
      refine List.nodup_cons.2 ⟨fun hmem => ?_, herase⟩
      obtain ⟨q, hq, hthread⟩ := List.mem_map.1 hmem
      exact (hother q hq).2 hthread
    | overflow => exact herase
  · intro q hq hphase
    obtain hq | ⟨phase, hres, rfl⟩ := (mem_resumed htable).1 hq
    · exact h.global q (hother q hq).1 hphase
    · obtain rfl : phase = .waitGlobal := hphase
      exact hsection.waits_global hres
  · intro k f' hf' hpending
    rw [hnew] at hf'
    by_cases hk : k = r.key
    · subst hk
      rw [if_pos rfl] at hf'
      cases hf'
      obtain hres | ⟨hbefore, hepoch⟩ := hsection.pending hpending
      · exact ⟨{ r with phase := .waitGlobal }, (mem_resumed htable).2 (.inr ⟨_, hres, rfl⟩), rfl, rfl⟩
      · obtain ⟨q, hq, hkey, hphase⟩ := h.pending r.key f htable hbefore
        refine ⟨q, (mem_resumed htable).2 (.inl (hstays q hq ?_)), hkey, hphase⟩
        rintro rfl
        exact hepoch (h.global q hq hphase)
    · rw [if_neg hk] at hf'
      obtain ⟨q, hq, hkey, hphase⟩ := h.pending k f' hf' hpending
      refine ⟨q, (mem_resumed htable).2 (.inl (hstays q hq ?_)), hkey, hphase⟩
      rintro rfl
      exact hk hkey.symm
  · intro q hq hblocked
    obtain hq | ⟨phase, hres, rfl⟩ := (mem_resumed htable).1 hq
    · obtain ⟨hmem, hthread⟩ := hother q hq
      obtain hsig | ⟨g, hg, hwait⟩ := h.asleep q hmem hblocked
      · exact .inl (List.mem_filter.2 ⟨hsig, by simpa using hthread⟩)
      · right
        by_cases hk : q.key = r.key
        · rw [hk, htable] at hg
          cases hg
          exact ⟨_, by rw [hnew, if_pos hk], hsection.keeps_waiting (h.locks.entry r.key f htable).flag hwait⟩
        · exact ⟨g, by rw [hnew, if_neg hk, hg], hwait⟩
    · exact .inr ⟨_, by rw [hnew, if_pos rfl], hsection.sleeps hres⟩

omit [DecidableEq T] in
theorem UnlockStep.pending {epoch : Int} {f f' : FileLockState T} (h : UnlockStep epoch f f') :
    f'.globalPending = f.globalPending := by
  cases h <;> rfl

omit [DecidableEq T] in
theorem UnlockStep.inner_waits {epoch : Int} {f f' : FileLockState T} (h : UnlockStep epoch f f') (hepoch : epoch = 0)
    (hdepth : f'.globalDepth ≠ 0) {r : Request T} {refs : Nat} (hr : WaitCondition f r) :
    WaitCondition { f' with refcount := refs } r := by
  cases h with
  | last _ _ => exact absurd rfl hdepth
  | inner _ _ => exact hr
  | epoch epochs hne _ => exact absurd hepoch hne

omit [DecidableEq T] in
theorem mem_blockedOn {s : System T} {key : Int} {t : T} :
    t ∈ blockedOn s key ↔ ∃ r ∈ s.requests, r.key = key ∧ r.Blocked ∧ r.thread = t := by
  simp only [blockedOn, List.mem_map, List.mem_filter, decide_eq_true_eq, and_assoc]

theorem Signals.Inv.unlock (h : w.Inv) {t : T} {key epoch : Int} (hev : w.Enabled (.unlock t key epoch)) :
    (w.step (.unlock t key epoch)).Inv := by
  have hlocks : Lock.Inv (Lock.step w.sys (.unlock t key epoch)) := h.locks.step hev
  cases hunlock : (w.sys.table key).bind (unlockSection t epoch) with
  | none =>
    have hstep : w.step (.unlock t key epoch) = w := by
      simp only [Signals.step, Lock.step, hunlock]
    rwa [hstep]
  | some f' =>
    obtain ⟨f, htable, hsection⟩ := Option.bind_eq_some_iff.1 hunlock
    have hcases := unlockSection_step hsection
    have hsys : Lock.step w.sys (.unlock t key epoch) = { w.sys with
        table := Function.update w.sys.table key (releaseRef f')
        held := w.sys.held.erase ⟨t, key, epoch⟩ } := by
      simp only [Lock.step, hunlock]
    -- the entry of the key is there with what the section left, or is gone
    have hentry : ∀ k g, (Lock.step w.sys (.unlock t key epoch)).table k = some g →
        k = key ∧ g = { f' with refcount := f'.refcount - 1 } ∨ k ≠ key ∧ w.sys.table k = some g := by
      intro k g hg
      rw [hsys] at hg
      dsimp only at hg
      by_cases hk : k = key
      · subst hk
        rw [Function.update_self, releaseRef] at hg
        split at hg
        · cases hg
        · cases hg
          exact .inl ⟨rfl, rfl⟩
      · rw [Function.update_of_ne hk] at hg
        exact .inr ⟨hk, hg⟩
    have hrequests : (Lock.step w.sys (.unlock t key epoch)).requests = w.sys.requests := by rw [hsys]
    have hnow : (w.step (.unlock t key epoch)).sys = Lock.step w.sys (.unlock t key epoch) := by
      simp only [Signals.step, hunlock]
      split <;> rfl
    refine ⟨by rwa [hnow], by rw [hnow, hrequests]; exact h.threads, by rw [hnow, hrequests]; exact h.global, ?_, ?_⟩
    · rw [hnow, hrequests]
      intro k g hg hpending
      obtain ⟨rfl, rfl⟩ | ⟨-, hold⟩ := hentry k g hg
      · exact h.pending k f htable (hcases.pending ▸ hpending)
      · exact h.pending k g hold hpending
    · rw [hnow, hrequests]
      intro r hr hblocked
      obtain ⟨g, hg⟩ := hlocks.table_some (hrequests ▸ hr)
      have hsignals : (w.step (.unlock t key epoch)).signalled =
          if epoch = 0 ∧ f'.globalDepth ≠ 0 then w.signalled else blockedOn w.sys key ++ w.signalled := by
        simp only [Signals.step, hunlock]
        split <;> rfl
      rw [hsignals]
      by_cases hinner : epoch = 0 ∧ f'.globalDepth ≠ 0
      · rw [if_pos hinner]
        refine (h.asleep r hr hblocked).imp_right ?_
        rintro ⟨f₀, hf₀, hwait⟩
        refine ⟨g, hg, ?_⟩
        obtain ⟨hk, rfl⟩ | ⟨-, hold⟩ := hentry r.key g hg
        · rw [hk, htable] at hf₀
          cases hf₀
          exact hcases.inner_waits hinner.1 hinner.2 hwait
        · rw [hold] at hf₀
          cases hf₀
          exact hwait
      · rw [if_neg hinner, List.mem_append]
        obtain ⟨hk, -⟩ | ⟨-, hold⟩ := hentry r.key g hg
        · exact .inl (.inl (mem_blockedOn.2 ⟨r, hr, hk, hblocked, rfl⟩))
        · refine (h.asleep r hr hblocked).imp .inr ?_
          rintro ⟨f₀, hf₀, hwait⟩
          rw [hold] at hf₀
          cases hf₀
          exact ⟨g, hg, hwait⟩

theorem Signals.Inv.step (h : w.Inv) {ev : Event T} (hev : w.Enabled ev) : (w.step ev).Inv := by
  cases ev with
  | enter t key epoch => exact h.enter hev
  | resume r => exact h.resume hev
  | unlock t key epoch => exact h.unlock hev

/-! ## A free key -/

omit [DecidableEq T] in
theorem KeyOk.free {waiting : Nat} {f : FileLockState T} (h : KeyOk [] waiting f) :
    f.globalHeld = false ∧ f.totalEpochHolders = 0 ∧ f.epochs = [] := by
  refine ⟨?_, h.total, ?_⟩
  · rw [← Bool.not_eq_true, h.flag, h.depth]
    exact Nat.lt_irrefl 0
  · refine List.eq_nil_iff_forall_not_mem.2 fun p hp => ?_
    obtain ⟨-, hold, hmem, -⟩ := (h.keys p.1).1 (List.mem_map_of_mem hp)
    cases hmem

omit [DecidableEq T] in
theorem KeyOk.waits_pending {waiting : Nat} {f : FileLockState T} (h : KeyOk [] waiting f) {r : Request T}
    (hr : WaitCondition f r) : r.phase = .waitFirst ∧ f.globalPending = true := by
  obtain ⟨hheld, htotal, hepochs⟩ := h.free
  obtain ⟨t, key, epoch, phase⟩ := r
  cases phase with
  | start => exact hr.elim
  | waitGlobal => simp [WaitCondition, hheld, htotal] at hr
  | waitFirst => simpa [WaitCondition, hheld] using hr
  | waitSecond => simp [WaitCondition, perEpochHasHolders, hepochs] at hr

omit [DecidableEq T] in
theorem SectionStep.takes {waiting : Nat} {r : Request T} {f : FileLockState T} {result : Outcome × FileLockState T}
    (h : SectionStep r.thread r.epoch r.phase f result) (hf : KeyOk [] waiting f) (hblocked : r.Blocked)
    (hglobal : r.phase = .waitGlobal → r.epoch = 0) (hover : ¬ WaitCondition f r) : result.1 = .acquired := by
  obtain ⟨hheld, htotal, hepochs⟩ := hf.free
  obtain ⟨t, key, epoch, phase⟩ := r
  cases h with
  | reenter hepoch hpos => rfl
  | globalWait pending hepoch hbusy hpending => simp [hheld, htotal] at hbusy
  | global hepoch hfree hdrained => rfl
  | first hepoch hphase hbusy =>
    cases phase with
    | start => exact absurd rfl hblocked
    | waitGlobal => exact absurd (hglobal rfl) hepoch
    | waitFirst => exact absurd hbusy hover
    | waitSecond => exact absurd rfl hphase
  | second hepoch hholders => simp [perEpochHasHolders, hepochs] at hholders
  | epoch hepoch hfree hroom => rfl
  | overflow hepoch hfree hfull hpassed => simp [hepochs, maxPerEpochHolders] at hfull

omit [DecidableEq T] in
/-- Of the calls that sleep on a key that nobody holds, one has a wait that is over. -/
theorem Signals.Inv.awake (h : w.Inv) {key : Int} {f : FileLockState T} (hf : w.sys.table key = some f)
    (hfree : KeyOk [] (waitingOf w.sys key) f) {r : Request T} (hr : r ∈ w.sys.requests) (hkey : r.key = key)
    (hblocked : r.Blocked) :
    ∃ q ∈ w.sys.requests, q.key = key ∧ q.Blocked ∧ ¬ WaitCondition f q := by
  by_cases hwait : WaitCondition f r
  · -- the flag is set, so the global request that set it sleeps on the key
    obtain ⟨-, hpending⟩ := hfree.waits_pending hwait
    obtain ⟨q, hq, hqkey, hphase⟩ := h.pending key f hf hpending
    refine ⟨q, hq, hqkey, ?_, fun hqwait => ?_⟩
    · rw [Request.Blocked, hphase]
      nofun
    · have hfirst := (hfree.waits_pending hqwait).1
      rw [hphase] at hfirst
      cases hfirst
  · exact ⟨r, hr, hkey, hblocked, hwait⟩

/-- No wake-up is lost: among the calls that sleep on a key that nobody holds there is one that was signalled,
finds its wait over, and takes the key when it runs. -/
theorem no_lost_wakeup (evs : List (Event T)) (hevs : Run.AllSteps Signals.step Signals.Enabled Signals.init evs) :
    let w := evs.foldl Signals.step Signals.init
    ∀ key, (∃ r ∈ w.sys.requests, r.key = key ∧ r.Blocked) → (∀ hold ∈ w.sys.held, hold.key ≠ key) →
      ∃ r ∈ w.sys.requests, r.key = key ∧ r.Blocked ∧ r.thread ∈ w.signalled ∧
        (∃ f, w.sys.table key = some f ∧ ¬ WaitCondition f r) ∧
        ⟨r.thread, key, r.epoch⟩ ∈ (Lock.step w.sys (.resume r)).held := by
  intro w key ⟨r, hr, hkey, hblocked⟩ hnone
  have hinv : w.Inv := Run.invariant Signals.Inv (fun _ _ h hev => h.step hev) Signals.Inv.init hevs
  obtain ⟨f, hf⟩ := hinv.locks.table_some hr
  rw [hkey] at hf
  have hholds : holdsOf w.sys key = [] :=
    List.filter_eq_nil_iff.2 fun hold hmem => by simpa using hnone hold hmem
  have hfree : KeyOk [] (waitingOf w.sys key) f := hholds ▸ hinv.locks.entry key f hf
  obtain ⟨q, hq, rfl, hqblocked, hover⟩ := hinv.awake hf hfree hr hkey hblocked
  refine ⟨q, hq, rfl, hqblocked, ?_, ⟨f, hf, hover⟩, ?_⟩
  · refine (hinv.asleep q hq hqblocked).resolve_right ?_
    rintro ⟨f₀, hf₀, hwait⟩
    rw [hf] at hf₀
    cases hf₀
    exact hover hwait
  · have htakes := (lockSection_step q.thread q.epoch q.phase f).takes hfree hqblocked (hinv.global q hq) hover
    simp only [Lock.step, resumeRequest, hf, htakes, List.mem_cons, true_or]

/-- Thread 1 holds key 7 at epoch 5, thread 2 wants the key globally and thread 3 at epoch 6; then thread 1
unlocks. -/
def wakeupRun : List (Event Nat) :=
  [.enter 1 7 5, .resume ⟨1, 7, 5, .start⟩, .enter 2 7 0, .resume ⟨2, 7, 0, .start⟩, .enter 3 7 6,
    .resume ⟨3, 7, 6, .start⟩, .unlock 1 7 5]

theorem no_lost_wakeup_pending :
    ∃ r ∈ (wakeupRun.foldl Signals.step Signals.init).sys.requests,
      ⟨r.thread, 7, r.epoch⟩ ∈ (Lock.step (wakeupRun.foldl Signals.step Signals.init).sys (.resume r)).held := by
  obtain ⟨r, hr, -, -, -, -, htakes⟩ := no_lost_wakeup wakeupRun (by decide +kernel) 7
    ⟨⟨3, 7, 6, .waitFirst⟩, by decide +kernel, rfl, nofun⟩ (by decide +kernel)
  exact ⟨r, hr, htakes⟩

end Lock
end SphereVFS
