import RustVmm.VirtioBlk.Executor

/-!
# Backends that are watched

`Watched` is a backend around any other one that keeps track of its position and of every range that it is asked to
read or to modify.

* `Moves` — a call goes on through a range, and where it fails it has stayed in it.
* `readData_moving`, `writeAllVolatileTo_moving` — one buffer of a read and of a write.
-/

set_option autoImplicit false

namespace RustVmm.VirtioBlk

open Lib VmMemory List Traced Triple

/-! ## Recording -/

inductive AccessKind where
  | read
  | modify
  deriving DecidableEq, Repr

/-- A range that a backend is asked to read or to modify. -/
structure Access where
  kind : AccessKind
  offset : Nat
  len : Nat
  deriving DecidableEq, Repr

def Access.Touches (self : Access) (x : Nat) : Prop := self.offset ≤ x ∧ x < self.offset + self.len

structure Watched (B : Type) where
  inner : B
  pos : Nat
  log : List Access

namespace Watched

variable {B : Type}

/-- The backend after a call at the position, which moves by some bytes. -/
def after (d : Watched B) (kind : AccessKind) (len moved : Nat) (inner : B) : Watched B :=
  ⟨inner, d.pos + moved, d.log ++ [⟨kind, d.pos, len⟩]⟩

instance [ReadVolatile B] : ReadVolatile (Watched B) where
  readVolatile d len :=
    match ReadVolatile.readVolatile d.inner len with
    | (.bytes data, inner) => (.bytes data, d.after .read len data.length inner)
    | (.interrupted, inner) => (.interrupted, d.after .read len 0 inner)
    | (.error kind touched, inner) => (.error kind touched, d.after .read len 0 inner)
  patience d := ReadVolatile.patience d.inner
  bytes_le h := by
    split at h <;> cases h
    exact ReadVolatile.bytes_le ‹_›
  touched_le h := by
    split at h <;> cases h
    exact ReadVolatile.touched_le ‹_›
  patience_lt h := by
    split at h <;> cases h
    exact ReadVolatile.patience_lt ‹_›

instance [WriteVolatile B] : WriteVolatile (Watched B) where
  writeVolatile d data :=
    match WriteVolatile.writeVolatile d.inner data with
    | (.wrote n, inner) => (.wrote n, d.after .modify data.length n inner)
    | (.interrupted, inner) => (.interrupted, d.after .modify data.length 0 inner)
    | (.error kind, inner) => (.error kind, d.after .modify data.length 0 inner)
  patience d := WriteVolatile.patience d.inner
  patience_lt h := by
    split at h <;> cases h
    exact WriteVolatile.patience_lt ‹_›

/-- The backend after a call on a range that it is given. -/
def modified (d : Watched B) (offset length : Nat) (inner : B) : Watched B :=
  { d with inner := inner, log := d.log ++ [⟨.modify, offset, length⟩] }

/-- The backend after a call of `seek`. -/
def seeked (d : Watched B) (target : SeekFrom) (result : Outcome ErrorKind UInt64) (inner : B) :
    Watched B :=
  match target, result with
  | .start offset, .ok _ => { d with inner := inner, pos := offset.toNat }
  | .fromEnd _, .ok pos => { d with inner := inner, pos := pos.toNat }
  | _, .err _ => { d with inner := inner }
  | _, .panic => { d with inner := inner }

instance [ReadVolatile B] [WriteVolatile B] [Backend B] : Backend (Watched B) where
  seek target d :=
    let (result, inner) := Backend.seek target d.inner
    (result, d.seeked target result inner)
  fsync d :=
    let (result, inner) := Backend.fsync d.inner
    (result, { d with inner := inner })
  punchHole offset length d :=
    let (result, inner) := Backend.punchHole offset length d.inner
    (result, d.modified offset length inner)
  writeZeroesAt d offset length :=
    let (answer, inner) := Backend.writeZeroesAt d.inner offset length
    (answer, d.modified offset length inner)
  zeroesPatience d := Backend.zeroesPatience d.inner
  zeroesPatience_lt h := by
    obtain ⟨hanswer, rfl⟩ := Prod.mk.inj h
    exact Backend.zeroesPatience_lt (Prod.ext hanswer rfl)

/-! ## Moving through a range -/

/-- All accesses are of one kind, and in a range. -/
def Confined (kind : AccessKind) (lo hi : Nat) (d : Watched B) : Prop :=
  ∀ a ∈ d.log, a.kind = kind ∧ lo ≤ a.offset ∧ a.offset + a.len ≤ hi

/-- In addition the position is in the range, at most `n` bytes from its start. -/
structure Moving (kind : AccessKind) (lo hi n : Nat) (d : Watched B) : Prop where
  confined : Confined kind lo hi d
  le : lo ≤ d.pos
  pos_le : d.pos ≤ lo + n

variable {kind : AccessKind} {lo hi n : Nat} {d : Watched B}

theorem Moving.mono (h : Moving kind lo hi n d) {m : Nat} (hle : n ≤ m) : Moving kind lo hi m d :=
  ⟨h.confined, h.le, h.pos_le.trans (Nat.add_le_add_left hle lo)⟩

variable {len : Nat}

theorem Moving.confined_after (h : Moving kind lo hi n d) (hfit : lo + n + len ≤ hi)
    (moved : Nat) (inner : B) : Confined kind lo hi (d.after kind len moved inner) := by
  have hpos := h.pos_le
  exact forall_mem_append.2 ⟨h.confined, forall_mem_singleton.2 ⟨rfl, h.le, by dsimp only; omega⟩⟩

theorem Moving.after (h : Moving kind lo hi n d) (hfit : lo + n + len ≤ hi)
    (moved : Nat) (inner : B) : Moving kind lo hi (n + moved) (d.after kind len moved inner) := by
  have hle := h.le
  have hpos := h.pos_le
  refine ⟨h.confined_after hfit moved inner, ?_, ?_⟩
  · show lo ≤ d.pos + moved
    omega
  · show d.pos + moved ≤ lo + (n + moved)
    omega

/-- The call goes on from `n` bytes to `m` bytes; where it fails, it has stayed in the range. -/
def Moves {α ε : Type} (kind : AccessKind) (lo hi n m : Nat) (x : Traced (Watched B) Effect ε α) : Prop :=
  Triple (Moving kind lo hi n) x (fun _ => Moving kind lo hi m) (Confined kind lo hi)

theorem foldlM_moving {α β ε : Type} {g : β → α → Traced (Watched B) Effect ε β} {xs : List α} (cost : α → Nat)
    (h : ∀ b n, ∀ x ∈ xs, lo + n + cost x ≤ hi → Moves kind lo hi n (n + cost x) (g b x))
    (hfit : lo + n + (xs.map cost).sum ≤ hi) (b : β) :
    Moves kind lo hi n (n + (xs.map cost).sum) (xs.foldlM g b) := by
  refine foldlM (fun done _ => Moving kind lo hi (n + (done.map cost).sum)) ?_ b
  intro done b x hx
  have hle : ((done ++ [x]).map cost).sum ≤ (xs.map cost).sum := by
    obtain ⟨rest, rfl⟩ := hx
    simp only [map_append, sum_append]
    omega
  have hmem : x ∈ xs := hx.subset (by simp)
  simp only [map_append, sum_append, map_cons, map_nil, sum_singleton] at hle ⊢
  rw [← Nat.add_assoc]
  exact h b _ x hmem (by omega)

theorem exact_moving {x : Traced (Watched B) Effect VmMemory.Error Nat} {count m : Nat}
    (h : Moves kind lo hi n m x) : Moves kind lo hi n m (do
      let res ← x
      if res ≠ count then .lift (.err (.partialBuffer count res)) else return ()) := by
  refine h.bind fun res => ?_
  split
  · exact lift nofun fun _ hs => hs.confined
  · exact pure () fun _ hs => hs

/-! ## Reading -/

variable {d' : Watched B} (mem : GuestMemory)

section Read

variable [ReadVolatile B]

theorem readVolatile_after {answer : ReadAnswer} (h : ReadVolatile.readVolatile d len = (answer, d')) :
    ∃ moved inner, moved ≤ len ∧ d' = d.after .read len moved inner ∧ (answer = .interrupted → moved = 0) := by
  unfold ReadVolatile.readVolatile instReadVolatile at h
  dsimp only at h
  split at h <;> cases h
  · exact ⟨_, _, ReadVolatile.bytes_le ‹_›, rfl, nofun⟩
  · exact ⟨0, _, Nat.zero_le _, rfl, fun _ => rfl⟩
  · exact ⟨0, _, Nat.zero_le _, rfl, nofun⟩

theorem readVolatile_moving (s : GuestSlice) (hfit : lo + n + s.len ≤ hi) :
    Moves .read lo hi n (n + s.len) (s.readVolatile (σ := Watched B)) := by
  intro d hd
  fun_induction GuestSlice.readVolatile s d with
  | case1 d data d' heq =>
    obtain ⟨moved, inner, hmoved, rfl, _⟩ := readVolatile_after heq
    exact of_ok rfl ((hd.after hfit moved inner).mono (Nat.add_le_add_left hmoved n))
  | case2 d kind touched d' heq =>
    obtain ⟨moved, inner, _, rfl, _⟩ := readVolatile_after heq
    exact of_err rfl (hd.confined_after hfit moved inner)
  | case3 d d' heq r ih =>
    obtain ⟨moved, inner, _, rfl, hmoved⟩ := readVolatile_after heq
    cases hmoved rfl
    exact ih (hd.after hfit 0 inner)

theorem readExactVolatileFrom_moving {addr count : Nat} (hfit : lo + n + count ≤ hi) :
    Moves .read lo hi n (n + count) (mem.asT.readExactVolatileFrom (σ := Watched B) addr count) := by
  refine exact_moving (lift_bind (fun ss hss => ?_) fun _ hs => hs.confined)
  have hlen : totalLen ss ≤ count := (yielded_of_slices hss).totalLen_le
  refine (foldlM_moving (fun s : GuestSlice => s.len) (fun acc m s hs hm => ?_) ?_ 0).post
    (fun _ _ hs => hs.mono (Nat.add_le_add_left hlen n)) fun _ hs => hs
  · refine bind ?_ fun _ => pure _ fun _ hs => hs
    rw [GuestSlice.readVolatileFrom_eq (sliceIn_of_slices hss s hs).backs]
    exact readVolatile_moving s hm
  · show lo + n + totalLen ss ≤ hi
    omega

theorem readData_moving (bytesToMem : UInt32) {d : UInt64 × UInt32} (hfit : lo + n + d.2.toNat ≤ hi) :
    Moves .read lo hi n (n + d.2.toNat) (readData (B := Watched B) mem bytesToMem d) := by
  refine (readExactVolatileFrom_moving mem hfit).attempt.bind fun result => ?_
  cases result with
  | ok u => exact lift (fun _ _ _ hs => hs.1 u rfl) fun _ hs => (hs.1 u rfl).confined
  | error e =>
    refine lift (fun m s hm _ => ?_) fun _ hs => hs.2 e rfl
    exact absurd hm (countBytes_error bytesToMem d.2 m e)

end Read

/-! ## Writing -/

section Write

variable [WriteVolatile B]
variable {data : List UInt8}

theorem writeVolatile_after {answer : WriteAnswer} (h : WriteVolatile.writeVolatile d data = (answer, d')) :
    ∃ moved inner, d' = d.after .modify data.length moved inner ∧
      (answer = .interrupted → moved = 0) ∧ ∀ m, answer = .wrote m → moved = m := by
  unfold WriteVolatile.writeVolatile instWriteVolatile at h
  dsimp only at h
  split at h <;> cases h
  · exact ⟨_, _, rfl, nofun, fun m hm => by cases hm; rfl⟩
  · exact ⟨0, _, rfl, fun _ => rfl, nofun⟩
  · exact ⟨0, _, rfl, nofun, nofun⟩

theorem writeAllVolatile_moving (hfit : lo + n + data.length ≤ hi) :
    Moves .modify lo hi n (n + data.length) (writeAllVolatile (τ := Watched B) data) := by
  intro d hd
  fun_induction writeAllVolatile data d generalizing n with
  | case1 d =>
    exact of_ok rfl (hd.mono (Nat.le_add_right _ _))
  | case2 data d hdata d' heq =>
    obtain ⟨moved, inner, rfl, _⟩ := writeVolatile_after heq
    exact of_err rfl (hd.confined_after hfit moved inner)
  | case3 data d hdata m d' heq hm hlt =>
    obtain ⟨moved, inner, rfl, _⟩ := writeVolatile_after heq
    exact of_err rfl (hd.confined_after hfit moved inner)
  | case4 data d hdata m d' heq hm hle ih =>
    obtain ⟨moved, inner, rfl, _, hmoved⟩ := writeVolatile_after heq
    obtain rfl := hmoved m rfl
    have hlen : moved + (data.drop moved).length = data.length := by
      rw [length_drop]
      omega
    have := ih (by omega) (hd.after hfit moved inner)
    rwa [Nat.add_assoc, hlen] at this
  | case5 data d hdata d' heq ih =>
    obtain ⟨moved, inner, rfl, hmoved, _⟩ := writeVolatile_after heq
    cases hmoved rfl
    exact ih hfit (hd.after hfit 0 inner)
  | case6 data d hdata kind d' heq =>
    obtain ⟨moved, inner, rfl, _⟩ := writeVolatile_after heq
    exact of_err rfl (hd.confined_after hfit moved inner)

theorem writeAllVolatileTo_moving {addr count : Nat} (hfit : lo + n + count ≤ hi) :
    Moves .modify lo hi n (n + count) (mem.asT.writeAllVolatileTo (τ := Watched B) mem.bytes addr count) := by
  refine exact_moving (lift_bind (fun ss hss => ?_) fun _ hs => hs.confined)
  have hlen : totalLen ss ≤ count := (yielded_of_slices hss).totalLen_le
  refine (foldlM_moving (fun s : GuestSlice => s.len) (fun acc m s hs hm => ?_) ?_ 0).post
    (fun _ _ hs => hs.mono (Nat.add_le_add_left hlen n)) fun _ hs => hs
  · refine bind ?_ fun _ => pure _ fun _ hs => hs
    rw [GuestSlice.writeAllVolatileTo_eq (sliceIn_of_slices hss s hs).backs]
    have hmove := writeAllVolatile_moving (B := B)
      (show lo + m + (bytesAt mem.bytes s.guestAddr s.len).length ≤ hi by rwa [length_bytesAt])
    rwa [length_bytesAt] at hmove
  · show lo + n + totalLen ss ≤ hi
    omega

end Write

end Watched

end RustVmm.VirtioBlk
