import Xv6Rcu.FsArray

namespace Xv6Rcu.SharedFile

open Exec Fs Threads Transition Function List Option

section Model

/-- A call of `filewrite`: `n` bytes at `addr` of the memory `m` of the caller. -/
structure Call where
  m : Mem
  addr : Nat
  n : Nat

instance : Inhabited Call := ⟨⟨fun _ => none, 0, 0⟩⟩

/-- What a process does next: the test of the loop, a function that it calls, or
`f->off += r`. -/
inductive Place where
  | test | beginOp | ilock | writei | advance | iunlock | endOp
  deriving DecidableEq

/-- The variables of a call; `c` is its number. -/
structure Frame where
  c : Nat
  w : Call
  i : Nat
  r : Int

def Frame.n1 (x : Frame) : Nat := if x.w.n - x.i > maxWrite then maxWrite else x.w.n - x.i

inductive Pc where
  | idle
  | run (p : Place) (x : Frame)

/-- Processes that write to one open file; `lock` is the lock of its inode. `calls`
and `log` are history: all calls, and the pieces that `writei` was called with,
each with the number of its call. -/
structure State (T : Type) where
  sys : Sys
  lock : Option T
  pc : T → Pc
  calls : List Call
  log : List (Nat × List Byte)

variable {T : Type} [DecidableEq T]

def State.goto (s : State T) (t : T) (q : Pc) : State T := { s with pc := update s.pc t q }

/-- A call of a function of `fs.c` or `log.c`; there is no step where it panics. -/
def State.onFs {α : Type} (s : State T) (x : M α) : Option (α × State T) :=
  match x s.sys.fs with
  | .ok (a, v) => some (a, { s with sys := { s.sys with fs := v } })
  | .error _ => none

/-- A step of process `t`, which calls `filewrite` when it is idle. Waiting in
`begin_op` for space in the log is a delay. -/
def step (sb : Super) (f : Fin NFILE) : Step (State T) (T × Call) := fun s a =>
  match s.pc a.1 with
  | .idle =>
    if (s.sys.file f).writable = true ∧ (s.sys.file f).type = .inode then
      some { s.goto a.1 (.run .test ⟨s.calls.length, a.2, 0, 0⟩) with calls := s.calls ++ [a.2] }
    else none
  | .run .test x => if x.i < x.w.n then some (s.goto a.1 (.run .beginOp x)) else some (s.goto a.1 .idle)
  | .run .beginOp x => (s.onFs Fs.beginOp).map (fun r => r.2.goto a.1 (.run .ilock x))
  | .run .ilock x =>
    if s.lock = none then
      (s.onFs (Fs.ilock (s.sys.file f).ip)).map (fun r => { r.2.goto a.1 (.run .writei x) with lock := some a.1 })
    else none
  | .run .writei x =>
    (s.onFs (Fs.writei sb (s.sys.file f).ip (.user x.w.m (x.w.addr + x.i)) (s.sys.file f).off x.n1)).map (fun r =>
      { r.2.goto a.1 (.run .advance { x with r := r.1 }) with
        log := s.log ++ [(x.c, x.w.m.bytes (x.w.addr + x.i) x.n1)] })
  | .run .advance x =>
    some { s.goto a.1 (.run .iunlock x) with
      sys := if 0 < x.r then s.sys.setFile f { s.sys.file f with off := (s.sys.file f).off + x.r.toNat } else s.sys }
  | .run .iunlock x =>
    (s.onFs (Fs.iunlock (s.sys.file f).ip)).map (fun r => { r.2.goto a.1 (.run .endOp x) with lock := none })
  | .run .endOp x =>
    (s.onFs Fs.endOp).map (fun r =>
      r.2.goto a.1 (if x.r ≠ x.n1 then .idle else .run .test { x with i := x.i + x.n1 }))

def init (sys : Sys) : State T := ⟨sys, none, fun _ => .idle, [], []⟩

/-- All writes succeed: each call of `writei` returns the number it was given. -/
def Succeeds (sb : Super) (f : Fin NFILE) (s : State T) (a : T × Call) : Prop :=
  ∀ x, s.pc a.1 = .run .writei x →
    ∃ v, Fs.writei sb (s.sys.file f).ip (.user x.w.m (x.w.addr + x.i)) (s.sys.file f).off x.n1 s.sys.fs = .ok (x.n1, v)

end Model

section Pieces

/-- The pieces of the first `i` bytes of a call, one for each transaction. -/
def Call.pieces (w : Call) (i : Nat) : List (List Byte) :=
  (List.range ((i + maxWrite - 1) / maxWrite)).map (fun r =>
    w.m.bytes (w.addr + r * maxWrite) (min maxWrite (i - r * maxWrite)))

/-- The pieces of call `c` that have been written, in their order. -/
def entries (log : List (Nat × List Byte)) (c : Nat) : List (List Byte) := (log.filter (fun y => y.1 == c)).map Prod.snd

variable {w : Call} {i n c : Nat} {log : List (Nat × List Byte)} {l : List Byte}

theorem bytes_length (m : Mem) (va n : Nat) : (m.bytes va n).length = n := by simp [Mem.bytes]

theorem bytes_append (m : Mem) (va i n : Nat) : m.bytes va (i + n) = m.bytes va i ++ m.bytes (va + i) n := by
  unfold Mem.bytes
  rw [List.range_add, List.map_append, List.map_map]
  simp only [comp_def, add_assoc]

theorem pieces_succ (hi : i % maxWrite = 0) (h0 : 0 < n) (hn : n ≤ maxWrite) :
    w.pieces (i + n) = w.pieces i ++ [w.m.bytes (w.addr + i) n] := by
  have hM : maxWrite = 3072 := rfl
  rw [hM] at hi hn
  have hcount : (i + n + maxWrite - 1) / maxWrite = (i + maxWrite - 1) / maxWrite + 1 := by
    rw [hM]
    omega
  have hlast : (i + maxWrite - 1) / maxWrite * maxWrite = i := by
    rw [hM]
    omega
  unfold Call.pieces
  rw [hcount, range_succ, map_append, map_singleton, hlast, Nat.add_sub_cancel_left]
  congr 1
  · refine map_congr_left (fun r hr => ?_)
    rw [mem_range] at hr
    have h1 : min maxWrite (i + n - r * maxWrite) = min maxWrite (i - r * maxWrite) := by
      rw [hM] at hr ⊢
      omega
    rw [h1]
  · rw [Nat.min_eq_right (hM ▸ hn)]

theorem pieces_zero : w.pieces 0 = [] := rfl

theorem pieces_flatten (w : Call) (i : Nat) : (w.pieces i).flatten = w.m.bytes w.addr i := by
  have hM : maxWrite = 3072 := rfl
  have hwhole : ∀ a, (w.pieces (a * maxWrite)).flatten = w.m.bytes w.addr (a * maxWrite) := by
    intro a
    induction a with
    | zero =>
      rw [Nat.zero_mul]
      rfl
    | succ a ih =>
      rw [Nat.add_mul, Nat.one_mul, pieces_succ (Nat.mul_mod_left a maxWrite) (by decide) le_rfl,
        flatten_append, ih, flatten_singleton, ← bytes_append]
  by_cases hz : i % maxWrite = 0
  · have hi : i = i / maxWrite * maxWrite := by
      rw [hM] at hz ⊢
      omega
    rw [hi]
    exact hwhole _
  · have hi : i = i / maxWrite * maxWrite + i % maxWrite := by
      rw [hM]
      omega
    have hlt : i % maxWrite < maxWrite := Nat.mod_lt _ (by decide)
    rw [hi, pieces_succ (Nat.mul_mod_left _ maxWrite) (Nat.pos_of_ne_zero hz) (le_of_lt hlt),
      flatten_append, hwhole, flatten_singleton, ← bytes_append]

theorem pieces_le {x : List Byte} (hx : x ∈ w.pieces i) : x.length ≤ maxWrite := by
  obtain ⟨r, -, rfl⟩ := mem_map.mp hx
  rw [bytes_length]
  exact Nat.min_le_left _ _

theorem entries_append_self : entries (log ++ [(c, l)]) c = entries log c ++ [l] := by
  simp [entries, filter_append]

theorem entries_append_ne {d : Nat} (h : d ≠ c) : entries (log ++ [(d, l)]) c = entries log c := by
  simp [entries, filter_append, h]

theorem mem_entries {x : List Byte} (h : (c, x) ∈ log) : x ∈ entries log c :=
  mem_map.mpr ⟨(c, x), mem_filter.mpr ⟨h, by simp⟩, rfl⟩

theorem flatMap_length (N : Nat) (h : ∀ y ∈ log, y.1 < N) :
    (log.flatMap Prod.snd).length = ∑ c ∈ Finset.range N, (entries log c).flatten.length := by
  induction log with
  | nil => simp [entries]
  | cons y log ih =>
    have hy := h y mem_cons_self
    have hone : ∀ c, (entries (y :: log) c).flatten.length =
        (if y.1 = c then y.2.length else 0) + (entries log c).flatten.length := by
      intro c
      by_cases hc : y.1 = c <;> simp [entries, hc]
    simp only [hone]
    rw [Finset.sum_add_distrib, Finset.sum_ite_eq, if_pos (Finset.mem_range.mpr hy), flatMap_cons,
      length_append, ih (fun z hz => h z (mem_cons_of_mem _ hz))]

end Pieces

section Progress

variable {T : Type}

def Pc.call : Pc → Option Nat
  | .idle => none
  | .run _ x => some x.c

/-- After `writei`. -/
def Place.after : Place → Bool
  | .advance | .iunlock | .endOp => true
  | _ => false

/-- How many bytes of its call a process has written. -/
def Frame.done (x : Frame) (p : Place) : Nat := if p.after = true then x.i + x.n1 else x.i

structure FrameOk (calls : List Call) (p : Place) (x : Frame) : Prop where
  call : calls[x.c]? = some x.w
  le : x.i ≤ x.w.n
  whole : x.i < x.w.n → x.i % maxWrite = 0
  more : p ≠ .test → x.i < x.w.n
  ret : p.after = true → x.r = x.n1

theorem n1_bounds {x : Frame} (h : x.i < x.w.n) : 0 < x.n1 ∧ x.n1 ≤ maxWrite ∧ x.i + x.n1 ≤ x.w.n := by
  have hM : maxWrite = 3072 := rfl
  unfold Frame.n1
  rw [hM]
  split <;> omega

theorem n1_whole {x : Frame} (h : x.i < x.w.n) (hi : x.i % maxWrite = 0) (hlt : x.i + x.n1 < x.w.n) :
    (x.i + x.n1) % maxWrite = 0 := by
  have hM : maxWrite = 3072 := rfl
  simp only [Frame.n1, hM] at hi hlt ⊢
  split at hlt <;> split <;> omega

/-- Each call has written its first pieces, in order, and all of them when it has
returned. -/
structure Prog (pc : T → Pc) (calls : List Call) (log : List (Nat × List Byte)) : Prop where
  frames : ∀ t p x, pc t = .run p x → FrameOk calls p x
  distinct : Distinct Pc.call pc
  ids : ∀ y ∈ log, y.1 < calls.length
  active : ∀ t p x, pc t = .run p x → entries log x.c = x.w.pieces (x.done p)
  returned : ∀ c w, calls[c]? = some w → (∀ t, (pc t).call ≠ some c) → entries log c = w.pieces w.n

variable [DecidableEq T] {pc : T → Pc} {calls : List Call} {log : List (Nat × List Byte)} {t : T} {p p' : Place}
  {x x' : Frame}

theorem Prog.go (h : Prog pc calls log) (hpc : pc t = .run p x) (hc : x'.c = x.c) (hw : x'.w = x.w)
    (hok : FrameOk calls p' x') (hd : x'.done p' = x.done p) : Prog (update pc t (.run p' x')) calls log := by
  have hcall : Pc.call (.run p' x') = Pc.call (pc t) := by
    rw [hpc]
    exact congrArg some hc
  refine ⟨fun u q y hu => ?_, h.distinct.same rfl hcall, h.ids, fun u q y hu => ?_, fun c w hcw hno => ?_⟩
  · by_cases hut : u = t
    · rw [hut, update_self] at hu
      obtain ⟨rfl, rfl⟩ := Pc.run.inj hu
      exact hok
    · rw [update_of_ne hut] at hu
      exact h.frames u q y hu
  · by_cases hut : u = t
    · rw [hut, update_self] at hu
      obtain ⟨rfl, rfl⟩ := Pc.run.inj hu
      rw [hc, hw, hd]
      exact h.active t p x hpc
    · rw [update_of_ne hut] at hu
      exact h.active u q y hu
  · refine h.returned c w hcw (fun u hu => hno u ?_)
    exact (same_update rfl hcall u).trans hu

theorem Prog.write (h : Prog pc calls log) (hpc : pc t = .run .writei x) (r : Int) (hr : r = x.n1) :
    Prog (update pc t (.run .advance { x with r := r })) calls
      (log ++ [(x.c, x.w.m.bytes (x.w.addr + x.i) x.n1)]) := by
  have hx := h.frames t _ x hpc
  have hlt := hx.more nofun
  obtain ⟨h0, hle, -⟩ := n1_bounds hlt
  have hcall : Pc.call (.run .advance { x with r := r }) = Pc.call (pc t) := by
    rw [hpc]
    rfl
  have hother : ∀ u q y, u ≠ t → pc u = .run q y → x.c ≠ y.c := by
    intro u q y hut hu hc
    refine hut (h.distinct u t y.c (by rw [hu]; rfl) ?_)
    rw [hpc]
    exact congrArg some hc
  refine ⟨fun u q y hu => ?_, h.distinct.same rfl hcall, fun y hy => ?_, fun u q y hu => ?_, fun c w hcw hno => ?_⟩
  · by_cases hut : u = t
    · rw [hut, update_self] at hu
      obtain ⟨rfl, rfl⟩ := Pc.run.inj hu
      exact ⟨hx.call, hx.le, hx.whole, fun _ => hlt, fun _ => hr⟩
    · rw [update_of_ne hut] at hu
      exact h.frames u q y hu
  · rcases mem_append.mp hy with hy | hy
    · exact h.ids y hy
    · rw [List.mem_singleton.mp hy]
      exact (List.getElem?_eq_some_iff.mp hx.call).1
  · by_cases hut : u = t
    · rw [hut, update_self] at hu
      obtain ⟨rfl, rfl⟩ := Pc.run.inj hu
      change entries _ x.c = x.w.pieces (x.i + x.n1)
      rw [entries_append_self, pieces_succ (hx.whole hlt) h0 hle, h.active t _ x hpc]
      rfl
    · rw [update_of_ne hut] at hu
      rw [entries_append_ne (hother u q y hut hu)]
      exact h.active u q y hu
  · have hne : x.c ≠ c := by
      rintro rfl
      refine hno t ?_
      rw [update_self]
      rfl
    rw [entries_append_ne hne]
    refine h.returned c w hcw (fun u hu => hno u ?_)
    exact (same_update rfl hcall u).trans hu

theorem Prog.finish (h : Prog pc calls log) (hpc : pc t = .run .test x) (hge : ¬ x.i < x.w.n) :
    Prog (update pc t .idle) calls log := by
  have hx := h.frames t _ x hpc
  have hin : x.i = x.w.n := le_antisymm hx.le (Nat.le_of_not_lt hge)
  refine ⟨fun u q y hu => ?_, h.distinct.update (fun _ _ _ _ hq => absurd hq nofun), h.ids, fun u q y hu => ?_,
    fun c w hcw hno => ?_⟩
  · by_cases hut : u = t
    · rw [hut, update_self] at hu
      cases hu
    · rw [update_of_ne hut] at hu
      exact h.frames u q y hu
  · by_cases hut : u = t
    · rw [hut, update_self] at hu
      cases hu
    · rw [update_of_ne hut] at hu
      exact h.active u q y hu
  · by_cases hc : c = x.c
    · subst hc
      have hw : w = x.w := some.inj (hcw.symm.trans hx.call)
      rw [hw, h.active t _ x hpc, ← hin]
      rfl
    · refine h.returned c w hcw (fun u hu => ?_)
      by_cases hut : u = t
      · rw [hut, hpc] at hu
        exact hc (some.inj hu).symm
      · refine hno u ?_
        rw [update_of_ne hut]
        exact hu

theorem Prog.start (h : Prog pc calls log) (hpc : pc t = .idle) (w : Call) :
    Prog (update pc t (.run .test ⟨calls.length, w, 0, 0⟩)) (calls ++ [w]) log := by
  have hold : ∀ (c : Nat) (v : Call), calls[c]? = some v → (calls ++ [w])[c]? = some v := by
    intro c v hc
    rw [List.getElem?_append_left (List.getElem?_eq_some_iff.mp hc).1]
    exact hc
  have hnew : (calls ++ [w])[calls.length]? = some w := getElem?_concat_length
  have hnone : entries log calls.length = [] := by
    unfold entries
    rw [map_eq_nil_iff, filter_eq_nil_iff]
    intro y hy hc
    exact Nat.ne_of_lt (h.ids y hy) (by simpa using hc)
  refine ⟨fun u q y hu => ?_, h.distinct.update (fun u hut c hc hq => ?_), fun y hy => ?_, fun u q y hu => ?_,
    fun c v hcv hno => ?_⟩
  · by_cases hut : u = t
    · rw [hut, update_self] at hu
      obtain ⟨rfl, rfl⟩ := Pc.run.inj hu
      exact ⟨hnew, Nat.zero_le _, fun _ => rfl, fun hc => absurd rfl hc, nofun⟩
    · rw [update_of_ne hut] at hu
      have hy := h.frames u q y hu
      exact ⟨hold _ _ hy.call, hy.le, hy.whole, hy.more, hy.ret⟩
  · cases hpu : pc u with
    | idle =>
      rw [hpu] at hc
      cases hc
    | run q y =>
      rw [hpu] at hc
      have h1 := (List.getElem?_eq_some_iff.mp (h.frames u q y hpu).call).1
      have h2 : y.c = c := Option.some.inj hc
      have h3 : calls.length = c := some.inj hq
      omega
  · rw [length_append]
    exact Nat.lt_add_right _ (h.ids y hy)
  · by_cases hut : u = t
    · rw [hut, update_self] at hu
      obtain ⟨rfl, rfl⟩ := Pc.run.inj hu
      exact hnone.trans pieces_zero.symm
    · rw [update_of_ne hut] at hu
      exact h.active u q y hu
  · by_cases hlt : c < calls.length
    · rw [getElem?_append_left hlt] at hcv
      refine h.returned c v hcv (fun u hu => ?_)
      by_cases hut : u = t
      · rw [hut, hpc] at hu
        cases hu
      · refine hno u ?_
        rw [update_of_ne hut]
        exact hu
    · have hc : c = calls.length := by
        have := (List.getElem?_eq_some_iff.mp hcv).1
        rw [List.length_append, List.length_singleton] at this
        omega
      refine absurd ?_ (hno t)
      rw [update_self, hc]
      rfl

end Progress

section Content

variable {sb : Super} {s0 : Sys} {f : Fin NFILE} {v w : Fs.State} {data l : List Byte} {k : Nat}

/-- From the offset on at which it was at first, the file has the bytes `data`. -/
structure Written (sb : Super) (s0 : Sys) (f : Fin NFILE) (v : Fs.State) (data : List Byte) : Prop where
  sound : Sound sb v
  ref : 0 < (v.ino (s0.file f).ip).ref
  type : (v.node (s0.file f).ip).type ≠ .free
  size : (v.node (s0.file f).ip).size =
    if data = [] then (s0.fs.node (s0.file f).ip).size
    else max (s0.fs.node (s0.file f).ip).size ((s0.file f).off + data.length)
  start : data ≠ [] → (s0.file f).off ≤ (s0.fs.node (s0.file f).ip).size
  bytes : ∀ q < (v.node (s0.file f).ip).size,
    fileByte v (s0.file f).ip q = patch (fileByte s0.fs (s0.file f).ip) (s0.file f).off data q

theorem Written.first (hs : Sound sb s0.fs) (hf : Opened s0 f) : Written sb s0 f s0.fs [] :=
  ⟨hs, hf.ref, hf.node, (if_pos rfl).symm, fun hc => absurd rfl hc, fun q _ => by rw [patch_nil]⟩

theorem Written.outstanding (h : Written sb s0 f v data) (o : Nat) : Written sb s0 f { v with outstanding := o } data :=
  ⟨h.sound.outstanding o, h.ref, h.type, h.size, h.start, h.bytes⟩

theorem Written.allocated (h : Written sb s0 f v data) : (v.dinode (s0.file f).ip).type ≠ .free := by
  rw [← h.sound.node]
  exact h.type

theorem Written.load (h : Written sb s0 f v data) : Written sb s0 f (v.load (s0.file f).ip) data := by
  have hq := load_quiet h.sound h.ref
  refine ⟨load_sound h.sound h.ref h.allocated, ?_, ?_, ?_, h.start, fun q hlt => ?_⟩
  · have hr : refs (v.load (s0.file f).ip) (s0.file f).ip = refs v (s0.file f).ip := congrFun load_refs _
    exact Nat.lt_of_lt_of_eq h.ref hr.symm
  · rw [hq.node]
    exact h.type
  · rw [hq.node]
    exact h.size
  · rw [hq.node] at hlt
    rw [hq.fileByte]
    exact h.bytes q hlt

theorem Written.writei (h : Written sb s0 f v data) (hl : Loaded v (s0.file f).ip) (ho : 0 < v.outstanding) {m : Mem}
    {va n : Nat} (hn : n < 2 ^ 32) (h0 : 0 < n)
    (hres : Fs.writei sb (s0.file f).ip (.user m va) ((s0.file f).off + data.length) n v = .ok (n, w)) :
    Written sb s0 f w (data ++ m.bytes va n) ∧ Loaded w (s0.file f).ip ∧ w.outstanding = v.outstanding := by
  have hspec : Runs (Fs.writei sb (s0.file f).ip (.user m va) ((s0.file f).off + data.length) n) v _ _ :=
    writei_spec h.sound.good hl ho hn
  unfold Runs at hspec
  rw [hres] at hspec
  rcases hspec with ⟨hr, -⟩ | ⟨tot, l, hr, hw⟩
  · omega
  · have htot : tot = n := by omega
    subst htot
    have hlen : l.length = tot := by
      rcases hw.ended with ⟨-, h2⟩ | ⟨-, h2⟩ | ⟨h1, -⟩
      · exact h2.symm
      · exact h2.symm
      · omega
    have hbytes : l = m.bytes va tot := by
      rw [bytes_eq hw.bytes, hlen]
    have htouch := hw.touch h.sound hl
    have hwl := htouch.loaded _ hl
    obtain ⟨g, hg⟩ := hw.copy
    have hold : v.node (s0.file f).ip = (v.ino (s0.file f).ip).copy := hl.node
    have hnode : w.node (s0.file f).ip = { (v.ino (s0.file f).ip).copy with
        addrs := g
        size := max (v.ino (s0.file f).ip).copy.size ((s0.file f).off + data.length + tot) } := by rw [hwl.node, hg]
    have hsize : (w.node (s0.file f).ip).size =
        max (v.node (s0.file f).ip).size ((s0.file f).off + data.length + tot) := by rw [hnode, hold]
    have hstart := hw.start
    rw [← hold] at hstart
    have hne : data ++ l ≠ [] := by
      intro hc
      have := congrArg List.length hc
      rw [length_append, length_nil] at this
      omega
    rw [← hbytes]
    refine ⟨⟨htouch.sound, ?_, ?_, ?_, fun _ => ?_, fun q hq => ?_⟩, hwl, htouch.outstanding⟩
    · exact hwl.ref
    · rw [hnode]
      exact hl.type
    · rw [hsize, if_neg hne, h.size, length_append, hlen]
      split
      · rename_i hd
        rw [hd, length_nil, add_zero, zero_add]
      · omega
    · by_cases hd : data = []
      · have hz := h.size
        rw [if_pos hd] at hz
        omega
      · exact h.start hd
    · have hc := h.sound.good.content h.type
      have hb := (hw.content _ _ hc hstart).byte (i := q) (by rw [← hsize]; exact hq)
      rw [hb, ← patch_append]
      unfold patch
      by_cases hin : (s0.file f).off + data.length ≤ q ∧ q - ((s0.file f).off + data.length) < l.length
      · rw [if_pos hin, if_pos hin]
      · rw [if_neg hin, if_neg hin]
        refine h.bytes q ?_
        omega

end Content

section Invariant

variable {T : Type}

/-- Places at which a process holds the lock of the inode. -/
def Pc.inside : Pc → Bool
  | .run .writei _ | .run .advance _ | .run .iunlock _ => true
  | _ => false

def Pc.inOp : Pc → Bool
  | .run .ilock _ | .run .writei _ | .run .advance _ | .run .iunlock _ | .run .endOp _ => true
  | _ => false

/-- Bytes that have been written, but not been added to `f->off`. -/
def Pc.pending : Pc → Nat
  | .run .advance x => x.n1
  | _ => 0

def State.pending (s : State T) : Nat := s.lock.elim 0 (fun t => (s.pc t).pending)

structure Inv (sb : Super) (f : Fin NFILE) (s0 : Sys) (s : State T) : Prop where
  prog : Prog s.pc s.calls s.log
  lock : ∀ t, (s.pc t).inside = true ↔ s.lock = some t
  ops : ∃ n, Counted Pc.inOp s.pc n ∧ n ≤ s.sys.fs.outstanding
  file : ∃ o, s.sys.file f = { s0.file f with off := o }
  written : Written sb s0 f s.sys.fs (s.log.flatMap Prod.snd)
  loaded : ∀ t, (s.pc t).inside = true → Loaded s.sys.fs (s0.file f).ip
  off : (s.sys.file f).off + s.pending = (s0.file f).off + (s.log.flatMap Prod.snd).length

variable {sb : Super} {f : Fin NFILE} {s0 : Sys} {s s' : State T} {t : T} {q : Pc}

theorem Inv.ip (h : Inv sb f s0 s) : (s.sys.file f).ip = (s0.file f).ip := by
  obtain ⟨o, ho⟩ := h.file
  rw [ho]

theorem Inv.outstanding (h : Inv sb f s0 s) (ht : (s.pc t).inOp = true) : 0 < s.sys.fs.outstanding := by
  obtain ⟨n, hn, hle⟩ := h.ops
  exact lt_of_lt_of_le (hn.pos ht) hle

variable [DecidableEq T]

section

variable (h : Inv sb f s0 s) (hp : (s.pc t).inside = false)

include h hp

/-- Who holds the lock, when a process that does not hold it moves outside. -/
theorem Inv.lock_outside (hq : q.inside = false) (u : T) :
    (update s.pc t q u).inside = true ↔ s.lock = some u := by
  rw [← h.lock u, same_update rfl (hq.trans hp.symm) u]

theorem Inv.pending_outside :
    s.lock.elim 0 (fun u => (update s.pc t q u).pending) = s.pending := by
  unfold State.pending
  cases hl : s.lock with
  | none => rfl
  | some u =>
    have hut : u ≠ t := by
      rintro rfl
      rw [(h.lock u).mpr hl] at hp
      cases hp
    simp only [elim_some, update_of_ne hut]

theorem Inv.outside {o : Nat} (hq : q.inside = false)
    (hpc : s'.pc = update s.pc t q) (hlock : s'.lock = s.lock) (hlog : s'.log = s.log)
    (hsys : s'.sys = { s.sys with fs := { s.sys.fs with outstanding := o } }) (hprog : Prog s'.pc s'.calls s'.log)
    (hops : ∃ n, Counted Pc.inOp s'.pc n ∧ n ≤ o) : Inv sb f s0 s' := by
  refine ⟨hprog, fun u => ?_, by rw [hsys]; exact hops, by rw [hsys]; exact h.file, ?_, fun u hu => ?_, ?_⟩
  · rw [hpc, hlock]
    exact h.lock_outside hp hq u
  · rw [hsys, hlog]
    exact h.written.outstanding o
  · rw [hpc, h.lock_outside hp hq u, ← h.lock u] at hu
    have hl := h.loaded u hu
    rw [hsys]
    exact ⟨hl.ref, hl.valid, hl.type⟩
  · have hpend : s'.pending = s.pending := by
      unfold State.pending
      rw [hlock, hpc]
      exact h.pending_outside hp
    rw [hpend, hsys, hlog]
    exact h.off

end

omit [DecidableEq T] in
theorem onFs_eq {α : Type} {x : M α} {a : α} {v : Fs.State} (h : x s.sys.fs = .ok (a, v)) :
    s.onFs x = some (a, { s with sys := { s.sys with fs := v } }) := by
  rw [State.onFs, h]

section

variable (h : Inv sb f s0 s)

include h

theorem Inv.lock_inside (hp : (s.pc t).inside = true) (hq : q.inside = true) (u : T) :
    (update s.pc t q u).inside = true ↔ s.lock = some u := by
  rw [← h.lock u, same_update rfl (hq.trans hp.symm) u]

theorem Inv.count_same (hq : q.inOp = (s.pc t).inOp) :
    ∃ n, Counted Pc.inOp (update s.pc t q) n ∧ n ≤ s.sys.fs.outstanding := by
  obtain ⟨n, hn, hle⟩ := h.ops
  exact ⟨n, hn.same hq, hle⟩

theorem Inv.start (hpc : s.pc t = .idle) (w : Call) :
    Inv sb f s0 { s.goto t (.run .test ⟨s.calls.length, w, 0, 0⟩) with calls := s.calls ++ [w] } :=
  h.outside (o := s.sys.fs.outstanding) (by rw [hpc]; rfl) rfl rfl rfl rfl rfl (h.prog.start hpc w)
    (h.count_same (by rw [hpc]; rfl))

theorem Inv.test {x : Frame} (hpc : s.pc t = .run .test x) (hlt : x.i < x.w.n) :
    Inv sb f s0 (s.goto t (.run .beginOp x)) := by
  have hx := h.prog.frames t _ x hpc
  exact h.outside (o := s.sys.fs.outstanding) (by rw [hpc]; rfl) rfl rfl rfl rfl rfl
    (h.prog.go hpc rfl rfl ⟨hx.call, hx.le, hx.whole, fun _ => hlt, nofun⟩ rfl) (h.count_same (by rw [hpc]; rfl))

theorem Inv.finish {x : Frame} (hpc : s.pc t = .run .test x) (hge : ¬ x.i < x.w.n) :
    Inv sb f s0 (s.goto t .idle) :=
  h.outside (o := s.sys.fs.outstanding) (by rw [hpc]; rfl) rfl rfl rfl rfl rfl (h.prog.finish hpc hge)
    (h.count_same (by rw [hpc]; rfl))

theorem Inv.beginOp {x : Frame} (hpc : s.pc t = .run .beginOp x)
    (hs : (s.onFs Fs.beginOp).map (fun r => r.2.goto t (.run .ilock x)) = some s') : Inv sb f s0 s' := by
  have hx := h.prog.frames t _ x hpc
  cases hs
  obtain ⟨n, hn, hle⟩ := h.ops
  refine h.outside (t := t) (q := .run .ilock x) (o := s.sys.fs.outstanding + 1) (by rw [hpc]; rfl) rfl rfl rfl rfl rfl
    (h.prog.go hpc rfl rfl ⟨hx.call, hx.le, hx.whole, fun _ => hx.more nofun, nofun⟩ rfl)
    ⟨n + 1, hn.enter (by rw [hpc]; rfl) rfl, Nat.succ_le_succ hle⟩

theorem Inv.ilock {x : Frame} (hpc : s.pc t = .run .ilock x) (hfree : s.lock = none)
    (hs : (s.onFs (Fs.ilock (s.sys.file f).ip)).map
      (fun r => { r.2.goto t (.run .writei x) with lock := some t }) = some s') : Inv sb f s0 s' := by
  have hx := h.prog.frames t _ x hpc
  have hres : Fs.ilock (s0.file f).ip s.sys.fs = .ok ((), s.sys.fs.load (s0.file f).ip) := by
    have hspec : Runs (Fs.ilock (s0.file f).ip) s.sys.fs (fun _ v => v = s.sys.fs.load (s0.file f).ip) (fun _ => False) :=
      ilock_spec h.written.ref (fun _ => rfl) (fun hno _ => absurd hno h.written.allocated)
    obtain ⟨_, _, hr, rfl⟩ := hspec.exists_ok
    exact hr
  rw [h.ip, onFs_eq hres, map_some, some.injEq] at hs
  subst hs
  have hout : ∀ u, (s.pc u).inside = false := by
    intro u
    by_contra hc
    have := (h.lock u).mp (by simpa using hc)
    rw [hfree] at this
    cases this
  obtain ⟨n, hn, hle⟩ := h.ops
  have hquiet := load_quiet h.written.sound h.written.ref
  refine ⟨h.prog.go hpc rfl rfl ⟨hx.call, hx.le, hx.whole, fun _ => hx.more nofun, nofun⟩ rfl, fun u => ?_,
    ⟨n, hn.same (by rw [hpc]; rfl), ?_⟩, h.file, h.written.load, fun _ _ => load_loaded h.written.sound h.written.ref
      h.written.allocated, ?_⟩
  · change (update s.pc t (.run .writei x) u).inside = true ↔ some t = some u
    refine update_cases u ?_ (fun hut => ?_)
    · exact iff_of_true rfl rfl
    · rw [hout u]
      exact iff_of_false nofun (fun hc => hut (some.inj hc).symm)
  · exact hquiet.outstanding.symm ▸ hle
  · have hpend : s.pending = 0 := by
      unfold State.pending
      rw [hfree]
      rfl
    have hoff := h.off
    rw [hpend] at hoff
    change (s.sys.file f).off + (update s.pc t (.run .writei x) t).pending = _
    rw [update_self]
    exact hoff

theorem Inv.writei {x : Frame} {a : T × Call} (hpc : s.pc a.1 = .run .writei x)
    (hok : Succeeds sb f s a)
    (hs : (s.onFs (Fs.writei sb (s.sys.file f).ip (.user x.w.m (x.w.addr + x.i)) (s.sys.file f).off x.n1)).map (fun r =>
      { r.2.goto a.1 (.run .advance { x with r := r.1 }) with
        log := s.log ++ [(x.c, x.w.m.bytes (x.w.addr + x.i) x.n1)] }) = some s') : Inv sb f s0 s' := by
  have hx := h.prog.frames a.1 _ x hpc
  obtain ⟨h0, hle, -⟩ := n1_bounds (hx.more nofun)
  have hin : (s.pc a.1).inside = true := by rw [hpc]; rfl
  have hl := (h.lock a.1).mp hin
  have hpend : s.pending = 0 := by
    unfold State.pending
    rw [hl, elim_some, hpc]
    rfl
  have hoff := h.off
  rw [hpend, add_zero] at hoff
  obtain ⟨v, hv⟩ := hok x hpc
  rw [onFs_eq hv, map_some, some.injEq] at hs
  subst hs
  rw [h.ip, hoff] at hv
  have hM : maxWrite = 3072 := rfl
  obtain ⟨hw, hload, hout⟩ := h.written.writei (h.loaded a.1 hin) (h.outstanding (t := a.1) (by rw [hpc]; rfl)) (by omega)
    h0 hv
  refine ⟨h.prog.write hpc x.n1 rfl, h.lock_inside hin rfl, ?_, h.file, ?_, fun _ _ => hload, ?_⟩
  · obtain ⟨n, hn, hle⟩ := h.ops
    exact ⟨n, hn.same (by rw [hpc]; rfl), hout.symm ▸ hle⟩
  · change Written sb s0 f v ((s.log ++ [_]).flatMap Prod.snd)
    rw [flatMap_append, flatMap_singleton]
    exact hw
  · change (s.sys.file f).off + s.lock.elim 0 (fun u => (update s.pc a.1 _ u).pending) =
      _ + ((s.log ++ [_]).flatMap Prod.snd).length
    rw [hl, elim_some, update_self, flatMap_append, flatMap_singleton, length_append,
      bytes_length, hoff, add_assoc]
    rfl

theorem Inv.advance {x : Frame} (hpc : s.pc t = .run .advance x) :
    Inv sb f s0 { s.goto t (.run .iunlock x) with
      sys := if 0 < x.r then s.sys.setFile f { s.sys.file f with off := (s.sys.file f).off + x.r.toNat } else s.sys } := by
  have hx := h.prog.frames t _ x hpc
  obtain ⟨h0, -, -⟩ := n1_bounds (hx.more nofun)
  have hr : x.r = x.n1 := hx.ret rfl
  have hin : (s.pc t).inside = true := by rw [hpc]; rfl
  have hl := (h.lock t).mp hin
  have hpend : s.pending = x.n1 := by
    unfold State.pending
    rw [hl, elim_some, hpc]
    rfl
  have hoff := h.off
  rw [hpend] at hoff
  rw [if_pos (by omega), hr, Int.toNat_natCast]
  refine ⟨h.prog.go hpc rfl rfl ⟨hx.call, hx.le, hx.whole, fun _ => hx.more nofun, fun _ => hr⟩ rfl,
    h.lock_inside hin rfl, h.count_same (by rw [hpc]; rfl), ?_, h.written, fun _ _ => h.loaded t hin, ?_⟩
  · obtain ⟨o, ho⟩ := h.file
    refine ⟨(s.sys.file f).off + x.n1, ?_⟩
    change update s.sys.file f _ f = _
    rw [update_self, ho]
  · change (update s.sys.file f _ f).off + s.lock.elim 0 (fun u => (update s.pc t _ u).pending) = _
    rw [hl, elim_some, update_self, update_self]
    exact hoff

theorem Inv.iunlock {x : Frame} (hpc : s.pc t = .run .iunlock x)
    (hs : (s.onFs (Fs.iunlock (s.sys.file f).ip)).map
      (fun r => { r.2.goto t (.run .endOp x) with lock := none }) = some s') : Inv sb f s0 s' := by
  have hx := h.prog.frames t _ x hpc
  have hin : (s.pc t).inside = true := by rw [hpc]; rfl
  have hl := (h.lock t).mp hin
  have hres : Fs.iunlock (s0.file f).ip s.sys.fs = .ok ((), s.sys.fs) := by
    have hspec : Runs (Fs.iunlock (s0.file f).ip) s.sys.fs (fun _ v => v = s.sys.fs) (fun _ => False) :=
      iunlock_spec h.written.ref rfl
    obtain ⟨_, _, hr, rfl⟩ := hspec.exists_ok
    exact hr
  rw [h.ip, onFs_eq hres, map_some, some.injEq] at hs
  subst hs
  have hpend : s.pending = 0 := by
    unfold State.pending
    rw [hl, elim_some, hpc]
    rfl
  have hoff := h.off
  rw [hpend] at hoff
  have hnone : ∀ u, (update s.pc t (.run .endOp x) u).inside = false := by
    intro u
    refine update_cases u ?_ (fun hut => ?_)
    · rfl
    · by_contra hc
      have := (h.lock u).mp (by simpa using hc)
      rw [hl] at this
      exact hut (some.inj this).symm
  refine ⟨h.prog.go hpc rfl rfl ⟨hx.call, hx.le, hx.whole, fun _ => hx.more nofun, fun _ => hx.ret rfl⟩ rfl, fun u => ?_,
    h.count_same (by rw [hpc]; rfl), h.file, h.written, fun u hu => ?_, hoff⟩
  · exact iff_of_false (fun hc => absurd ((hnone u).symm.trans hc) nofun) nofun
  · exact absurd ((hnone u).symm.trans hu) nofun

theorem Inv.endOp {x : Frame} (hpc : s.pc t = .run .endOp x)
    (hs : (s.onFs Fs.endOp).map (fun r =>
      r.2.goto t (if x.r ≠ x.n1 then .idle else .run .test { x with i := x.i + x.n1 })) = some s') : Inv sb f s0 s' := by
  have hx := h.prog.frames t _ x hpc
  have hlt := hx.more nofun
  obtain ⟨-, -, hle'⟩ := n1_bounds hlt
  have hr : x.r = x.n1 := hx.ret rfl
  rw [onFs_eq (x := Fs.endOp) rfl, map_some, some.injEq, if_neg (not_not.mpr hr)] at hs
  subst hs
  obtain ⟨n, hn, hle⟩ := h.ops
  refine h.outside (t := t) (q := .run .test { x with i := x.i + x.n1 }) (o := s.sys.fs.outstanding - 1)
    (by rw [hpc]; rfl) rfl rfl rfl rfl rfl (h.prog.go hpc rfl rfl ?_ rfl)
    ⟨n - 1, hn.leave (by rw [hpc]; rfl) rfl, Nat.sub_le_sub_right hle 1⟩
  exact ⟨hx.call, hle', n1_whole hlt (hx.whole hlt), fun hc => absurd rfl hc, nofun⟩

theorem Inv.step {a : T × Call} (hok : Succeeds sb f s a) (hs : step sb f s a = some s') :
    Inv sb f s0 s' := by
  unfold SharedFile.step at hs
  split at hs
  · rename_i hpc
    split at hs
    · rw [← some.inj hs]
      exact h.start hpc a.2
    · cases hs
  · rename_i x hpc
    split at hs
    · rename_i hlt
      rw [← some.inj hs]
      exact h.test hpc hlt
    · rename_i hge
      rw [← some.inj hs]
      exact h.finish hpc hge
  · rename_i x hpc
    exact h.beginOp hpc hs
  · rename_i x hpc
    split at hs
    · rename_i hfree
      exact h.ilock hpc hfree hs
    · cases hs
  · rename_i x hpc
    exact h.writei hpc hok hs
  · rename_i x hpc
    rw [← some.inj hs]
    exact h.advance hpc
  · rename_i x hpc
    exact h.iunlock hpc hs
  · rename_i x hpc
    exact h.endOp hpc hs

end

omit [DecidableEq T] in
theorem init_inv (hs : Sound sb s0.fs) (hf : Opened s0 f) : Inv sb f s0 (init (T := T) s0) := by
  refine ⟨⟨nofun, nofun, nofun, nofun, nofun⟩, fun _ => iff_of_false nofun nofun, ⟨0, Counted.zero (fun _ => rfl), Nat.zero_le _⟩,
    ⟨(s0.file f).off, rfl⟩, Written.first hs hf, nofun, rfl⟩

end Invariant

section Runs

variable {T : Type} [DecidableEq T]

theorem sum_getD (l : List Nat) : ∑ c ∈ Finset.range l.length, l.getD c 0 = l.sum := by
  induction l with
  | nil => rfl
  | cons x l ih =>
    rw [length_cons, Finset.sum_range_succ', sum_cons, ← ih, add_comm]
    rfl

/-- When all calls have returned, the pieces in `log` make up the new content of
the file from the old offset on. Those of each call are there once and in order,
and the offset has moved by the sum of all lengths. -/
theorem shared_offset_loses_nothing (sb : Super) (f : Fin NFILE) (s0 : Sys) (hs : Sound sb s0.fs) (hf : Opened s0 f)
    (r : Run (step (T := T) sb f)) (h0 : r.state 0 = init s0) (hr : r.Meets (Succeeds sb f)) (k : Nat) (hk : k ≤ r.length)
    (hidle : ∀ t, (r.state k).pc t = .idle) :
    ((r.state k).sys.file f).off = (s0.file f).off + ((r.state k).calls.map Call.n).sum ∧
    (∀ y ∈ (r.state k).log, y.2.length ≤ 3 * BSIZE ∧ y.1 < (r.state k).calls.length) ∧
    (∀ c w, (r.state k).calls[c]? = some w →
      entries (r.state k).log c = w.pieces w.n ∧ (entries (r.state k).log c).flatten = w.m.bytes w.addr w.n) ∧
    (Fs.abs (r.state k).sys).data (s0.file f).ip =
      if (r.state k).log.flatMap Prod.snd = [] then (Fs.abs s0).data (s0.file f).ip
      else overwrite ((Fs.abs s0).data (s0.file f).ip) (s0.file f).off ((r.state k).log.flatMap Prod.snd) := by
  have h : Inv sb f s0 (r.state k) :=
    r.invariant hr (h0 ▸ init_inv hs hf) (fun s a t hs hok hstep => hs.step hok hstep) k hk
  generalize r.state k = s at h hidle ⊢
  have hret : ∀ c w, s.calls[c]? = some w → entries s.log c = w.pieces w.n := by
    intro c w hc
    refine h.prog.returned c w hc (fun t ht => ?_)
    rw [hidle t] at ht
    cases ht
  have hpend : s.pending = 0 := by
    unfold State.pending
    cases s.lock with
    | none => rfl
    | some t =>
      rw [elim_some, hidle t]
      rfl
  have hw := h.written
  refine ⟨?_, fun y hy => ⟨?_, h.prog.ids y hy⟩, fun c w hc => ⟨hret c w hc, ?_⟩, ?_⟩
  · have hoff := h.off
    rw [hpend, add_zero, flatMap_length s.calls.length h.prog.ids] at hoff
    rw [hoff, ← sum_getD, length_map]
    congr 1
    refine Finset.sum_congr rfl (fun c hc => ?_)
    have hlt := Finset.mem_range.mp hc
    rw [hret c _ (getElem?_eq_getElem hlt), pieces_flatten, bytes_length]
    simp [List.getD, hlt]
  · have hlt := h.prog.ids y hy
    have hmem : y.2 ∈ entries s.log y.1 := mem_entries hy
    rw [hret y.1 _ (getElem?_eq_getElem hlt)] at hmem
    exact pieces_le hmem
  · rw [hret c w hc, pieces_flatten]
  · unfold Fs.abs
    dsimp only
    rw [if_neg hw.type, if_neg hf.node, hw.size]
    have hbytes := hw.bytes
    rw [hw.size] at hbytes
    split
    · rename_i hnil
      refine slice_congr (fun q hq => ?_)
      rw [if_pos hnil] at hbytes
      rw [hbytes (0 + q) (by omega), hnil, patch_nil]
    · rename_i hne
      rw [if_neg hne] at hbytes
      rw [← slice_patch (hw.start hne)]
      exact slice_congr (fun q hq => hbytes (0 + q) (by omega))

/-- A test for `Succeeds`. -/
def succeeds (sb : Super) (f : Fin NFILE) (s : State T) (a : T × Call) : Bool :=
  match s.pc a.1 with
  | .run .writei x =>
    match Fs.writei sb (s.sys.file f).ip (.user x.w.m (x.w.addr + x.i)) (s.sys.file f).off x.n1 s.sys.fs with
    | .ok (r, _) => decide (r = x.n1)
    | .error _ => false
  | _ => true

omit [DecidableEq T] in
theorem succeeds_sound {sb : Super} {f : Fin NFILE} {s : State T} {a : T × Call} (h : succeeds sb f s a = true) :
    Succeeds sb f s a := by
  intro x hpc
  unfold succeeds at h
  rw [hpc] at h
  dsimp only at h
  split at h
  · rename_i r v hr
    refine ⟨v, hr.trans ?_⟩
    rw [of_decide_eq_true h]
  · cases h

/-- Two processes write 5 and 3 bytes to an empty file; the second one has the
offset while the first one waits for the lock. -/
def twoWriters : Run (step (T := Bool) tiny 0) :=
  Run.ofExec (step tiny 0) (init oneFile)
    ([(true, ⟨countUp, 0, 5⟩), (true, default), (true, default)] ++
      (false, ⟨countUp, 2, 3⟩) :: List.replicate 8 (false, default) ++ List.replicate 6 (true, default))
    (by decide +kernel)

theorem shared_offset_loses_nothing_twoWriters :
    (Fs.abs (twoWriters.state 18).sys).data 1 = [2, 3, 4, 0, 1, 2, 3, 4] ∧ ((twoWriters.state 18).sys.file 0).off = 8 := by
  have hidle : ∀ t, (twoWriters.state 18).pc t = .idle := by
    have hcall : ∀ t, ((twoWriters.state 18).pc t).call = none := by decide +kernel
    intro t
    cases hpc : (twoWriters.state 18).pc t with
    | idle => rfl
    | run p x =>
      have := hcall t
      rw [hpc] at this
      cases this
  have hok : twoWriters.Meets (Succeeds tiny 0) := by
    have hall : ∀ i < 18, succeeds tiny 0 (twoWriters.state i) (twoWriters.act i) = true := by decide +kernel
    exact fun i hi => succeeds_sound (hall i hi)
  obtain ⟨h1, -, -, h4⟩ := shared_offset_loses_nothing tiny 0 oneFile oneFile_ready.sound (oneFile_ready.opened 0 rfl) twoWriters rfl
    hok 18 (by decide) hidle
  refine ⟨h4.trans ?_, h1.trans ?_⟩
  · decide +kernel
  · decide +kernel

end Runs

end Xv6Rcu.SharedFile
