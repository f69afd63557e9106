import Xv6Rcu.Fifo
import Xv6Rcu.Transition

namespace Xv6Rcu.Pipe

open Fifo Transition Function List Option

def PIPESIZE : Nat := 512

/-- `uint` counters wrap here. -/
def WRAP : Nat := 2 ^ 32

section Model

variable (T : Type) [DecidableEq T]

/-- Where a process is in `pipewrite` or `piperead`; `addr`, `n` and `i` are
their variables. -/
inductive Pc where
  | idle
  | wEnter (addr : Nat) (n : Int)
  | wTest (addr : Nat) (n : Int) (i : Nat)
  | wSleep (addr : Nat) (n : Int) (i : Nat)
  | wCopy (addr : Nat) (n : Int) (i : Nat)
  | wStore (addr : Nat) (n : Int) (i : Nat) (ch : UInt8)
  | wBump (addr : Nat) (n : Int) (i : Nat) (ch : UInt8)
  | rEnter (addr : Nat) (n : Int)
  | rWait (addr : Nat) (n : Int)
  | rSleep (addr : Nat) (n : Int)
  | rTest (addr : Nat) (n : Int) (i : Nat)
  | rLoad (addr : Nat) (n : Int) (i : Nat)
  | rBump (addr : Nat) (n : Int) (i : Nat) (ch : UInt8)
  | rCopy (addr : Nat) (n : Int) (i : Nat)
  | cEnter (writable : Bool)
  | close (writable : Bool)
  | leave
  deriving DecidableEq, Inhabited

/-- A byte that was put into the buffer: who did, in which call, and at which `i`. -/
structure Put where
  writer : T
  call : Nat
  index : Nat
  byte : UInt8

/-- `struct pipe`, the processes, and what went in and out of the buffer. -/
structure State where
  data : Nat → UInt8
  nread : Nat
  nwrite : Nat
  readopen : Bool
  writeopen : Bool
  lock : Option T
  pc : T → Pc
  calls : T → Nat
  puts : List (Put T)
  gets : List UInt8

/-- What a step depends on outside of the pipe: `killed`, what `copyin` returns,
whether `copyout` succeeds, and the call that an idle process makes. -/
structure Env where
  killed : Bool
  copyin : Option UInt8
  copyout : Bool
  call : Pc
  deriving Inhabited

variable {T}

def State.goto (s : State T) (t : T) (q : Pc) : State T := { s with pc := update s.pc t q }

def State.acquire (s : State T) (t : T) (q : Pc) : Option (State T) :=
  if s.lock = none then some { s.goto t q with lock := some t } else none

def State.release (s : State T) (t : T) (q : Pc) : State T := { s.goto t q with lock := none }

/-- One step of process `t`. A sleeping process may wake up at any time. -/
def step : Step (State T) (T × Env) := fun s a =>
  let t := a.1
  match s.pc t with
  | .idle =>
    match a.2.call with
    | .wEnter addr n => some { s.goto t (.wEnter addr n) with calls := update s.calls t (s.calls t + 1) }
    | .rEnter addr n => some (s.goto t (.rEnter addr n))
    | .cEnter writable => some (s.goto t (.cEnter writable))
    | _ => none
  | .wEnter addr n => s.acquire t (.wTest addr n 0)
  | .wTest addr n i =>
    if i < n then
      if s.readopen = false ∨ a.2.killed = true then some (s.release t .idle)
      else if s.nwrite = (s.nread + PIPESIZE) % WRAP then some (s.release t (.wSleep addr n i))
      else some (s.goto t (.wCopy addr n i))
    else some (s.goto t .leave)
  | .wSleep addr n i => s.acquire t (.wTest addr n i)
  | .wCopy addr n i =>
    match a.2.copyin with
    | none => some (s.goto t .leave)
    | some ch => some (s.goto t (.wStore addr n i ch))
  | .wStore addr n i ch =>
    some { s.goto t (.wBump addr n i ch) with data := update s.data (s.nwrite % PIPESIZE) ch }
  | .wBump addr n i ch =>
    some { s.goto t (.wTest addr n (i + 1)) with
      nwrite := (s.nwrite + 1) % WRAP, puts := s.puts ++ [⟨t, s.calls t, i, ch⟩] }
  | .rEnter addr n => s.acquire t (.rWait addr n)
  | .rWait addr n =>
    if s.nread = s.nwrite ∧ s.writeopen = true then
      if a.2.killed = true then some (s.release t .idle) else some (s.release t (.rSleep addr n))
    else some (s.goto t (.rTest addr n 0))
  | .rSleep addr n => s.acquire t (.rWait addr n)
  | .rTest addr n i =>
    if i < n then
      if s.nread = s.nwrite then some (s.goto t .leave) else some (s.goto t (.rLoad addr n i))
    else some (s.goto t .leave)
  | .rLoad addr n i => some (s.goto t (.rBump addr n i (s.data (s.nread % PIPESIZE))))
  | .rBump addr n i ch =>
    some { s.goto t (.rCopy addr n i) with nread := (s.nread + 1) % WRAP, gets := s.gets ++ [ch] }
  | .rCopy addr n i =>
    if a.2.copyout = true then some (s.goto t (.rTest addr n (i + 1))) else some (s.goto t .leave)
  | .cEnter writable => s.acquire t (.close writable)
  | .close writable =>
    if writable = true then some { s.goto t .leave with writeopen := false }
    else some { s.goto t .leave with readopen := false }
  | .leave => some (s.release t .idle)

/-- What `pipealloc` sets up, in a page of any content. -/
def init (data : Nat → UInt8) : State T where
  data := data
  nread := 0
  nwrite := 0
  readopen := true
  writeopen := true
  lock := none
  pc := fun _ => .idle
  calls := fun _ => 0
  puts := []
  gets := []

end Model

section Invariant

/-- Places at which a process holds `pi->lock`. -/
def Pc.inside : Pc → Bool
  | .idle | .wEnter _ _ | .wSleep _ _ _ | .rEnter _ _ | .rSleep _ _ | .cEnter _ => false
  | _ => true

/-- Places after the test that the buffer is not full. -/
def Pc.writing : Pc → Bool
  | .wCopy _ _ _ | .wStore _ _ _ _ | .wBump _ _ _ _ => true
  | _ => false

/-- Places after the test that the buffer is not empty. -/
def Pc.taking : Pc → Bool
  | .rLoad _ _ _ | .rBump _ _ _ _ => true
  | _ => false

def Pc.stored : Pc → Option UInt8
  | .wBump _ _ _ ch => some ch
  | _ => none

/-- The byte that has been read, but is still counted. -/
def Pc.loaded : Pc → Option UInt8
  | .rBump _ _ _ ch => some ch
  | _ => none

/-- `i` of a `pipewrite` that goes on. -/
def Pc.pos : Pc → Option Nat
  | .wEnter _ _ => some 0
  | .wTest _ _ i | .wSleep _ _ i | .wCopy _ _ i | .wStore _ _ i _ | .wBump _ _ i _ => some i
  | _ => none

variable {T : Type} [DecidableEq T] {s s' : State T} {t u : T} {q : Pc}

/-- What is known of the pipe at a place of the code. -/
structure At (s : State T) (t : T) (q : Pc) : Prop where
  lock : q.inside = true → s.lock = some t
  room : q.writing = true → s.nwrite ≠ (s.nread + PIPESIZE) % WRAP
  stored : ∀ ch, q.stored = some ch → s.data (s.nwrite % PIPESIZE) = ch
  filled : q.taking = true → s.nread ≠ s.nwrite
  loaded : ∀ ch, q.loaded = some ch → s.data (s.nread % PIPESIZE) = ch

omit [DecidableEq T] in
theorem At.outside (h : q.inside = false) : At s t q := by
  cases q <;> simp only [Pc.inside, Bool.true_eq_false] at h <;> exact ⟨nofun, nofun, nofun, nofun, nofun⟩

/-- Bytes of one writer go in in the order of its calls and of `i`. -/
def Earlier (x y : Put T) : Prop := x.writer = y.writer → x.call < y.call ∨ x.call = y.call ∧ x.index < y.index

structure Ordered (s : State T) : Prop where
  pairs : s.puts.Pairwise Earlier
  before : ∀ x ∈ s.puts, x.call < s.calls x.writer ∨
    x.call = s.calls x.writer ∧ ∀ i, (s.pc x.writer).pos = some i → x.index < i

/-- What was put in and not taken out is in the buffer. -/
def Buffered (s : State T) : Prop :=
  ∃ pend, s.puts.map (fun x => x.byte) = s.gets ++ pend ∧ Holds PIPESIZE WRAP s.data s.nread s.nwrite pend

structure Inv (s : State T) : Prop where
  buffered : Buffered s
  ordered : Ordered s
  places : ∀ t, At s t (s.pc t)

theorem Inv.next (h : Inv s) (t : T) (q : Pc) (hpc : s'.pc = update s.pc t q)
    (hown : s.lock = none ∨ s.lock = some t ∨
      s'.lock = s.lock ∧ s'.data = s.data ∧ s'.nread = s.nread ∧ s'.nwrite = s.nwrite)
    (hat : At s' t q) (hb : Buffered s') (ho : Ordered s') : Inv s' := by
  refine ⟨hb, ho, fun u => ?_⟩
  rw [hpc]
  by_cases hu : u = t
  · subst hu
    rw [update_self]
    exact hat
  · rw [update_of_ne hu]
    have hold := h.places u
    have hout : s.lock ≠ some u → At s' u (s.pc u) := by
      intro hl
      refine At.outside ?_
      by_contra hin
      exact hl (hold.lock (by simpa using hin))
    rcases hown with hl | hl | ⟨h1, h2, h3, h4⟩
    · exact hout (by rw [hl]; nofun)
    · refine hout ?_
      rw [hl]
      exact fun hc => hu (some.inj hc).symm
    · exact ⟨fun hi => h1.trans (hold.lock hi), fun hw => by rw [h3, h4]; exact hold.room hw,
        fun ch hc => by rw [h2, h4]; exact hold.stored ch hc, fun ht => by rw [h3, h4]; exact hold.filled ht,
        fun ch hc => by rw [h2, h3]; exact hold.loaded ch hc⟩

section

variable (h : Ordered s) (hpc : s'.pc = update s.pc t q)

include h hpc

theorem Ordered.goto (hp : s'.puts = s.puts)
    (hc : s'.calls = s.calls) (hq : ∀ i, q.pos = some i → (s.pc t).pos = some i) : Ordered s' := by
  refine ⟨by rw [hp]; exact h.pairs, fun x hx => ?_⟩
  rw [hp] at hx
  rw [hc, hpc]
  refine (h.before x hx).imp_right (fun hb => ⟨hb.1, fun i hi => hb.2 i ?_⟩)
  by_cases hu : x.writer = t
  · rw [hu, update_self] at hi
    rw [hu]
    exact hq i hi
  · rwa [update_of_ne hu] at hi

theorem Ordered.call (hp : s'.puts = s.puts)
    (hc : s'.calls = update s.calls t (s.calls t + 1)) : Ordered s' := by
  refine ⟨by rw [hp]; exact h.pairs, fun x hx => ?_⟩
  rw [hp] at hx
  have hb := h.before x hx
  rw [hc, hpc]
  by_cases hu : x.writer = t
  · rw [hu] at hb ⊢
    rw [update_self]
    left
    omega
  · rw [update_of_ne hu, update_of_ne hu]
    exact hb

theorem Ordered.put {i : Nat} {ch : UInt8}
    (hpos : (s.pc t).pos = some i) (hq : q.pos = some (i + 1)) (hc : s'.calls = s.calls)
    (hp : s'.puts = s.puts ++ [⟨t, s.calls t, i, ch⟩]) : Ordered s' := by
  refine ⟨?_, fun x hx => ?_⟩
  · rw [hp, pairwise_append]
    refine ⟨h.pairs, pairwise_singleton _ _, fun x hx y hy hw => ?_⟩
    rw [mem_singleton] at hy
    subst hy
    have hw : x.writer = t := hw
    have hb := h.before x hx
    rw [hw] at hb
    exact hb.imp_right (fun hb => ⟨hb.1, hb.2 i hpos⟩)
  · rw [hc, hpc]
    rw [hp, mem_append, mem_singleton] at hx
    rcases hx with hx | rfl
    · refine (h.before x hx).imp_right (fun hb => ⟨hb.1, fun j hj => ?_⟩)
      by_cases hu : x.writer = t
      · rw [hu, update_self, hq] at hj
        have := hb.2 i (by rw [hu]; exact hpos)
        have := some.inj hj
        omega
      · rw [update_of_ne hu] at hj
        exact hb.2 j hj
    · refine .inr ⟨rfl, fun j hj => ?_⟩
      rw [update_self, hq] at hj
      have := some.inj hj
      dsimp only
      omega

end

theorem Inv.acquire (h : Inv s) (hs : s.acquire t q = some s') (hq : ∀ i, q.pos = some i → (s.pc t).pos = some i)
    (hw : q.writing = false) (hk : q.taking = false) (hsb : q.stored = none) (hlb : q.loaded = none) : Inv s' := by
  unfold State.acquire at hs
  split at hs
  · rename_i hl
    rw [← some.inj hs]
    refine h.next t q rfl (.inl hl) ⟨fun _ => rfl, ?_, ?_, ?_, ?_⟩ h.buffered (h.ordered.goto rfl rfl rfl hq)
    · rw [hw]
      nofun
    · rw [hsb]
      nofun
    · rw [hk]
      nofun
    · rw [hlb]
      nofun
  · cases hs

theorem Inv.release (h : Inv s) (hl : s.lock = some t) (hq : q.inside = false)
    (hpos : ∀ i, q.pos = some i → (s.pc t).pos = some i) : Inv (s.release t q) :=
  h.next t q rfl (.inr (.inl hl)) (At.outside hq) h.buffered (h.ordered.goto rfl rfl rfl hpos)

theorem Inv.goto (h : Inv s) (hl : s.lock = some t) (hat : At s t q)
    (hpos : ∀ i, q.pos = some i → (s.pc t).pos = some i) : Inv (s.goto t q) :=
  h.next t q rfl (.inr (.inl hl)) ⟨hat.lock, hat.room, hat.stored, hat.filled, hat.loaded⟩ h.buffered
    (h.ordered.goto rfl rfl rfl hpos)

theorem PIPESIZE_dvd : PIPESIZE ∣ WRAP := by decide

theorem PIPESIZE_lt : PIPESIZE < WRAP := by decide

omit [DecidableEq T] in
theorem Inv.room {pend : List UInt8} (hh : Holds PIPESIZE WRAP s.data s.nread s.nwrite pend)
    (hr : s.nwrite ≠ (s.nread + PIPESIZE) % WRAP) : pend.length < PIPESIZE := by
  have hne : pend.length ≠ PIPESIZE := fun hc => hr ((hh.full_iff PIPESIZE_lt).mpr hc)
  have := hh.le
  omega

theorem Inv.store {addr i : Nat} {n : Int} {ch : UInt8} (h : Inv s) (hpc : s.pc t = .wStore addr n i ch) :
    Inv { s.goto t (.wBump addr n i ch) with data := update s.data (s.nwrite % PIPESIZE) ch } := by
  have hat := h.places t
  rw [hpc] at hat
  have hl := hat.lock rfl
  obtain ⟨pend, hput, hh⟩ := h.buffered
  refine h.next t _ rfl (.inr (.inl hl)) ⟨fun _ => hl, fun _ => hat.room rfl, ?_, nofun, nofun⟩
    ⟨pend, hput, hh.scribble PIPESIZE_dvd (Inv.room hh (hat.room rfl)) ch⟩ (h.ordered.goto rfl rfl rfl ?_)
  · intro c hc
    rw [← some.inj hc]
    exact update_self _ _ _
  · intro j hj
    rw [hpc]
    exact hj

theorem Inv.bump {addr i : Nat} {n : Int} {ch : UInt8} (h : Inv s) (hpc : s.pc t = .wBump addr n i ch) :
    Inv { s.goto t (.wTest addr n (i + 1)) with
      nwrite := (s.nwrite + 1) % WRAP, puts := s.puts ++ [⟨t, s.calls t, i, ch⟩] } := by
  have hat := h.places t
  rw [hpc] at hat
  have hl := hat.lock rfl
  obtain ⟨pend, hput, hh⟩ := h.buffered
  refine h.next t _ rfl (.inr (.inl hl)) ⟨fun _ => hl, nofun, nofun, nofun, nofun⟩ ⟨pend ++ [ch], ?_, ?_⟩
    (h.ordered.put rfl (by rw [hpc]; rfl) rfl rfl rfl)
  · rw [map_append, hput, append_assoc]
    rfl
  · exact hh.push PIPESIZE_dvd (Inv.room hh (hat.room rfl)) (hat.stored ch rfl)

theorem Inv.take {addr i : Nat} {n : Int} {ch : UInt8} (h : Inv s) (hpc : s.pc t = .rBump addr n i ch) :
    Inv { s.goto t (.rCopy addr n i) with nread := (s.nread + 1) % WRAP, gets := s.gets ++ [ch] } := by
  have hat := h.places t
  rw [hpc] at hat
  have hl := hat.lock rfl
  obtain ⟨pend, hput, hh⟩ := h.buffered
  cases pend with
  | nil => exact absurd ((hh.empty_iff PIPESIZE_lt).mpr rfl) (hat.filled rfl)
  | cons x pend =>
    obtain ⟨hx, hh'⟩ := hh.pop PIPESIZE_dvd
    have hch : x = ch := hx.symm.trans (hat.loaded ch rfl)
    subst hch
    refine h.next t _ rfl (.inr (.inl hl)) ⟨fun _ => hl, nofun, nofun, nofun, nofun⟩ ⟨pend, ?_, hh'⟩
      (h.ordered.goto rfl rfl rfl nofun)
    change s.puts.map (fun x => x.byte) = s.gets ++ [x] ++ pend
    rw [hput, append_assoc]
    rfl

theorem Inv.step {a : T × Env} (h : Inv s) (hs : step s a = some s') : Inv s' := by
  obtain ⟨t, env⟩ := a
  have hat := h.places t
  unfold Pipe.step at hs
  dsimp only at hs
  split at hs
  · rename_i hpc
    have hidle : ∀ q : Pc, q.inside = false → (∀ i, q.pos = some i → (s.pc t).pos = some i) → Inv (s.goto t q) := by
      intro q hq hpos
      exact h.next t q rfl (.inr (.inr ⟨rfl, rfl, rfl, rfl⟩)) (At.outside hq) h.buffered
        (h.ordered.goto rfl rfl rfl hpos)
    split at hs
    · rw [← some.inj hs]
      exact h.next t _ rfl (.inr (.inr ⟨rfl, rfl, rfl, rfl⟩)) (At.outside rfl) h.buffered
        (h.ordered.call rfl rfl rfl)
    · rw [← some.inj hs]
      exact hidle _ rfl nofun
    · rw [← some.inj hs]
      exact hidle _ rfl nofun
    · cases hs
  · rename_i addr n hpc
    exact h.acquire hs (fun i hi => by rw [hpc]; exact hi) rfl rfl rfl rfl
  · rename_i addr n i hpc
    rw [hpc] at hat
    have hl := hat.lock rfl
    have hsame : ∀ q : Pc, q.pos = some i ∨ q.pos = none → ∀ j, q.pos = some j → (s.pc t).pos = some j := by
      rintro q (hq | hq) j hj
      · rw [hpc, ← hj, hq]
        rfl
      · rw [hq] at hj
        cases hj
    split at hs
    · split at hs
      · rw [← some.inj hs]
        exact h.release hl rfl nofun
      · split at hs
        · rw [← some.inj hs]
          exact h.release hl rfl (hsame _ (.inl rfl))
        · rename_i hroom
          rw [← some.inj hs]
          exact h.goto hl ⟨fun _ => hl, fun _ => hroom, nofun, nofun, nofun⟩ (hsame _ (.inl rfl))
    · rw [← some.inj hs]
      exact h.goto hl ⟨fun _ => hl, nofun, nofun, nofun, nofun⟩ nofun
  · rename_i addr n i hpc
    exact h.acquire hs (fun j hj => by rw [hpc]; exact hj) rfl rfl rfl rfl
  · rename_i addr n i hpc
    rw [hpc] at hat
    have hl := hat.lock rfl
    split at hs
    · rw [← some.inj hs]
      exact h.goto hl ⟨fun _ => hl, nofun, nofun, nofun, nofun⟩ nofun
    · rw [← some.inj hs]
      exact h.goto hl ⟨fun _ => hl, fun _ => hat.room rfl, nofun, nofun, nofun⟩ (fun j hj => by rw [hpc]; exact hj)
  · rename_i addr n i ch hpc
    rw [← some.inj hs]
    exact h.store hpc
  · rename_i addr n i ch hpc
    rw [← some.inj hs]
    exact h.bump hpc
  · exact h.acquire hs nofun rfl rfl rfl rfl
  · rename_i addr n hpc
    rw [hpc] at hat
    have hl := hat.lock rfl
    split at hs
    · split at hs
      · rw [← some.inj hs]
        exact h.release hl rfl nofun
      · rw [← some.inj hs]
        exact h.release hl rfl nofun
    · rw [← some.inj hs]
      exact h.goto hl ⟨fun _ => hl, nofun, nofun, nofun, nofun⟩ nofun
  · exact h.acquire hs nofun rfl rfl rfl rfl
  · rename_i addr n i hpc
    rw [hpc] at hat
    have hl := hat.lock rfl
    split at hs
    · split at hs
      · rw [← some.inj hs]
        exact h.goto hl ⟨fun _ => hl, nofun, nofun, nofun, nofun⟩ nofun
      · rename_i hne
        rw [← some.inj hs]
        exact h.goto hl ⟨fun _ => hl, nofun, nofun, fun _ => hne, nofun⟩ nofun
    · rw [← some.inj hs]
      exact h.goto hl ⟨fun _ => hl, nofun, nofun, nofun, nofun⟩ nofun
  · rename_i addr n i hpc
    rw [hpc] at hat
    have hl := hat.lock rfl
    rw [← some.inj hs]
    exact h.goto hl ⟨fun _ => hl, nofun, nofun, fun _ => hat.filled rfl, fun c hc => some.inj hc⟩ nofun
  · rename_i addr n i ch hpc
    rw [← some.inj hs]
    exact h.take hpc
  · rename_i addr n i hpc
    rw [hpc] at hat
    have hl := hat.lock rfl
    split at hs
    · rw [← some.inj hs]
      exact h.goto hl ⟨fun _ => hl, nofun, nofun, nofun, nofun⟩ nofun
    · rw [← some.inj hs]
      exact h.goto hl ⟨fun _ => hl, nofun, nofun, nofun, nofun⟩ nofun
  · exact h.acquire hs nofun rfl rfl rfl rfl
  · rename_i writable hpc
    rw [hpc] at hat
    have hl := hat.lock rfl
    split at hs
    · rw [← some.inj hs]
      exact h.next t _ rfl (.inr (.inl hl)) ⟨fun _ => hl, nofun, nofun, nofun, nofun⟩ h.buffered
        (h.ordered.goto rfl rfl rfl nofun)
    · rw [← some.inj hs]
      exact h.next t _ rfl (.inr (.inl hl)) ⟨fun _ => hl, nofun, nofun, nofun, nofun⟩ h.buffered
        (h.ordered.goto rfl rfl rfl nofun)
  · rename_i hpc
    rw [hpc] at hat
    rw [← some.inj hs]
    exact h.release (hat.lock rfl) rfl nofun

omit [DecidableEq T] in
theorem init_inv (data : Nat → UInt8) : Inv (init data : State T) :=
  ⟨⟨[], rfl, holds_nil (Nat.two_pow_pos 32)⟩, ⟨List.Pairwise.nil, nofun⟩, fun _ => At.outside rfl⟩

end Invariant

section Runs

variable {T : Type} [DecidableEq T]

/-- Whatever readers and writers do, the counters are at most `PIPESIZE` apart,
the bytes taken out are the first of those put in, all others are in the buffer
in their order, and the bytes of a writer went in in the order of its calls and
of the positions in each call. -/
theorem pipe_is_fifo (r : Run (step (T := T))) (data : Nat → UInt8) (h0 : r.state 0 = init data) :
    ∀ k ≤ r.length,
      ((r.state k).nwrite + WRAP - (r.state k).nread) % WRAP ≤ PIPESIZE ∧
      (r.state k).gets <+: (r.state k).puts.map (fun x => x.byte) ∧
      (∀ j x, (r.state k).puts[(r.state k).gets.length + j]? = some x →
        (r.state k).data (((r.state k).nread + j) % PIPESIZE) = x.byte) ∧
      (r.state k).puts.Pairwise Earlier := by
  intro k hk
  have h : Inv (r.state k) := by
    refine r.invariant r.meets_true (h0 ▸ init_inv data) (fun s a t hs _ hstep => ?_) k hk
    exact hs.step hstep
  obtain ⟨pend, hput, hh⟩ := h.buffered
  refine ⟨?_, ⟨pend, hput.symm⟩, fun j x hx => hh.slot j x.byte ?_, h.ordered.pairs⟩
  · rw [hh.sub PIPESIZE_lt]
    exact hh.le
  · have hmap : ((r.state k).puts.map (fun x => x.byte))[(r.state k).gets.length + j]? = some x.byte := by
      rw [getElem?_map, hx]
      rfl
    rw [hput, getElem?_append_right (Nat.le_add_right _ _), Nat.add_sub_cancel_left] at hmap
    exact hmap

/-- The environment of a step that makes call `q`. -/
def Env.calls (q : Pc) : Env := ⟨false, none, true, q⟩

/-- The environment of a step in which `copyin` returns `ch`. -/
def Env.copies (ch : UInt8) : Env := ⟨false, some ch, true, .idle⟩

/-- A writer puts 7 and 8 into the pipe, a reader takes one byte. -/
def writeTwoReadOne : Run (step (T := Bool)) :=
  Run.ofExec step (init (fun _ => 0))
    ((Env.calls (.wEnter 0 2) :: List.replicate 5 (Env.copies 7) ++ List.replicate 6 (Env.copies 8)).map (fun e => (true, e)) ++
      (Env.calls (.rEnter 0 1) :: List.replicate 5 (Env.copies 0)).map (fun e => (false, e)))
    (by decide +kernel)

theorem pipe_is_fifo_writeTwoReadOne :
    (writeTwoReadOne.state 18).gets = [7] ∧ (writeTwoReadOne.state 18).puts.length = 2 ∧
      (writeTwoReadOne.state 18).gets <+: (writeTwoReadOne.state 18).puts.map (fun x => x.byte) :=
  ⟨by decide +kernel, by decide +kernel, (pipe_is_fifo writeTwoReadOne (fun _ => 0) rfl 18 (by decide)).2.1⟩

end Runs

end Xv6Rcu.Pipe
