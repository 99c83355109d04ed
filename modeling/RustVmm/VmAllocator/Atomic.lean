import RustVmm.VmAllocator.Runs

/-!
# When a failed call leaves the tree alone

`free` deletes the node before it looks for the neighbours, and `allocate` deletes the candidate before it inserts
the pieces; both give up halfway on an error.  What decides is known before the call:

* `ClearOfEdges`: a node that is freed does not start at address 1 and does not end at `u64::MAX - 1`, so that the
  searches for its neighbours stay in the address type;
* `HasRoom`: the tree is low enough for all that the call inserts, as deletions do not make it higher and an
  insertion adds at most one level.

`reachable_error_atomic_iff` is the result for every reachable allocator.  The first condition is necessary.  The
second one is not: in a tree of height 48 to 50 it depends on where the deletion takes place whether the tree gets
lower by it, and the height does not tell.
-/

set_option autoImplicit false

namespace RustVmm.VmAllocator

open Lib AvlTree AddressAllocator

def ClearOfEdges (a : AddressAllocator) : Call → Prop
  | .allocate _ _ _ => True
  | .free k => (∃ v ∈ a.intervalTree.root, v.key = k) → EdgesClear k

def HasRoom (a : AddressAllocator) : Call → Prop
  | .allocate size alignment policy =>
    ∀ c v r, Constraint.new size alignment policy = .ok c → plan c a.intervalTree = .ok (v, r) → v.key ≠ r →
      a.intervalTree.root.height + rests v.key r < 50
  | .free _ => a.intervalTree.root.height < 50

def SameNodes (a a' : AddressAllocator) : Prop := ∀ v, v ∈ a'.intervalTree.root ↔ v ∈ a.intervalTree.root

theorem SameNodes.refl (a : AddressAllocator) : SameNodes a a := fun _ => Iff.rfl

variable {a a' : AddressAllocator} {call : Call} {o : Outcome Error (Option RangeInclusive)}

theorem HasRoom.of_height (h : a.intervalTree.root.height ≤ 47) (call : Call) : HasRoom a call := by
  cases call with
  | allocate size alignment policy =>
    intro c v r _ _ _
    have := rests_le v.key r
    omega
  | free k => exact Nat.lt_of_le_of_lt h (by decide)

theorem AddressAllocator.Performs.atomic (h : a.Performs call o a') (hroom : HasRoom a call) (hclear : ClearOfEdges a call)
    {e : Error} (he : o = .err e) : SameNodes a a' := by
  cases h with
  | invalid => exact .refl a
  | allocate hc h =>
    cases h with
    | noCandidate | taken => exact .refl a
    | whole => cases he
    | split => cases he
    | lost hp hne hh => exact absurd (hroom _ _ _ hc hp hne) (Nat.not_lt.2 hh)
  | free h =>
    cases h with
    | absent => exact .refl a
    | edge hr hedge hd =>
      rcases hr with hnil | hin
      · -- an empty tree has nothing to lose
        intro v
        have hm := hd.mem v
        rw [hnil] at hm ⊢
        simp [hm]
      · exact absurd (hclear hin) hedge
    | lost _ _ hh => exact absurd hroom (Nat.not_lt.2 hh)
    | merged => cases he

theorem AddressAllocator.Performs.clearOfEdges (h : a.Performs call o a') (hatomic : (∃ e, o = .err e) → SameNodes a a') :
    ClearOfEdges a call := by
  cases h with
  | invalid => trivial
  | allocate => trivial
  | free h =>
    rintro ⟨v, hv, hvk⟩
    cases h with
    | absent _ hk => exact absurd hvk (hk v hv)
    | edge _ _ hd => exact absurd hvk ((hd.mem v).1 ((hatomic ⟨_, rfl⟩ v).2 hv)).2
    | lost _ hclear | merged _ hclear => exact hclear

/-- **When errors are atomic.**  In every reachable allocator, if an error of a call leaves the nodes as they were,
then the call is clear of the edges; if the tree has room for the call, this is enough.  A tree of height at most 47
has room for every call. -/
theorem reachable_error_atomic_iff {base size : UInt64} {a₀ : AddressAllocator}
    (hnew : AddressAllocator.new base size = .ok a₀) (calls : List Call) (a : AddressAllocator)
    (ha : run AddressAllocator.step a₀ calls = a) (call : Call) :
    (((∃ e, (AddressAllocator.exec call a).1 = .err e) → SameNodes a (a.step call)) → ClearOfEdges a call) ∧
    (HasRoom a call → ClearOfEdges a call →
      (∃ e, (AddressAllocator.exec call a).1 = .err e) → SameNodes a (a.step call)) ∧
    (a.intervalTree.root.height ≤ 47 → HasRoom a call) := by
  have hinv : TreeInv a.intervalTree := ha ▸ run_treeInv hnew calls
  have hperforms := exec_cases hinv call
  refine ⟨hperforms.clearOfEdges, fun hroom hclear ⟨e, he⟩ => ?_, fun hlow => .of_height hlow call⟩
  exact hperforms.atomic hroom hclear he

/-- A range inside an allocated node is no node: its release fails and changes nothing. -/
theorem error_atomic_inner_range :
    ∃ a₀ : AddressAllocator, ∃ k : RangeInclusive, AddressAllocator.new 0 0x1000 = .ok a₀ ∧
      let a := run AddressAllocator.step a₀ [.allocate 0x100 1 .firstMatch]
      (AddressAllocator.exec (.free k) a).1 = .err .resourceNotAvailable ∧ SameNodes a (a.step (.free k)) := by
  let k : RangeInclusive := ⟨5, 6, by decide, by decide, by decide⟩
  let a : AddressAllocator := run step page [.allocate 0x100 1 .firstMatch]
  have herr : (exec (.free k) a).1 = .err .resourceNotAvailable := by decide
  have hk : EdgesClear k := by decide
  have hroom : HasRoom a (.free k) := by
    show a.intervalTree.root.height < 50
    decide
  exact ⟨page, k, new_page, herr,
    (reachable_error_atomic_iff new_page [.allocate 0x100 1 .firstMatch] a rfl (.free k)).2.1 hroom (fun _ => hk) ⟨_, herr⟩⟩

theorem free_error_loses_node : ∃ a₀ : AddressAllocator, ∃ k : RangeInclusive, AddressAllocator.new 1 10 = .ok a₀ ∧
      let a := run AddressAllocator.step a₀ [.allocate 4 1 .firstMatch]
      ⟨k, .allocated⟩ ∈ a.intervalTree.root ∧
      (AddressAllocator.exec (.free k) a).1 = .err .underflow ∧
      ¬ ⟨k, .allocated⟩ ∈ (a.step (.free k)).intervalTree.root := by
  refine ⟨⟨⟨1, 10, by decide, by decide, by decide⟩, IntervalTree.new ⟨1, 10, by decide, by decide, by decide⟩⟩,
    ⟨1, 4, by decide, by decide, by decide⟩, by decide, ?_⟩
  decide

end RustVmm.VmAllocator
