import Mathlib.Logic.Function.Basic
import Heapviz.Run
import Heapviz.Ring

/-!
# The interposed allocator functions

The hooks of `preload/preload.c` as step machines over the two things
they share: the real allocator's blocks and the event ring. A hook is at
most three such accesses long - an allocating call runs the real function
and then reports, `free` reports and then runs the real function, and
`realloc` reports the release, runs the real function and reports what it
handed back. Between any two of them another thread may run.

The model is the steady state of an enabled hook: symbols resolved, ring
mapped, `g_in_hook` clear on entry (nothing `hv_emit` calls allocates).
A push is one atomic append; what it does inside is `Heapviz.Ring`. The
bootstrap arena is present as an address range, since `free` and
`realloc` branch on it.

The real allocator is the environment: it answers a request with a block
or with NULL, and `HookSys.step` refuses answers no allocator gives - a
block that is live, NULL as a block, a byte of the arena, or a block for
a `calloc` whose product does not fit `size_t`.
-/

namespace Heapviz

/-! ## The calls -/

/-- `HV_BOOTSTRAP_BYTES`. -/
def hvBootstrapBytes : Nat := 64 * 1024

/-- `hv_is_bootstrap_ptr`, for an arena placed at `arena`. -/
def hvIsBootstrapPtr (arena p : Nat) : Bool := arena ≤ p && p < arena + hvBootstrapBytes

/-- `hv_usable` of a block: the allocator's figure, saturated at 32 bits. -/
def hvUsable (u : Nat) : Nat := min u (2 ^ 32 - 1)

/-- What the allocating hooks have of their own: the opcode they report,
the bytes they ask the real function for, and the size they report. No
allocating hook reports a free, and the size is the request unless the
request is one no allocator can meet. -/
structure AllocHook where
  op : HvOp
  request : Nat
  reported : Nat
  op_ne : op ≠ .free
  reported_eq : request < 2 ^ 64 → reported = request
deriving DecidableEq

namespace AllocHook

def malloc (size : Nat) : AllocHook := ⟨.malloc, size, size, by decide, fun _ => rfl⟩

/-- `calloc` reports the product, or zero if it overflows `size_t`. -/
def calloc (nmemb size : Nat) : AllocHook :=
  ⟨.calloc, nmemb * size, if nmemb * size < 2 ^ 64 then nmemb * size else 0, by decide,
    fun h => if_pos h⟩

/-- The path `HV_ALIGNED_HOOK` shares. -/
def aligned (size : Nat) : AllocHook := ⟨.memalign, size, size, by decide, fun _ => rfl⟩

def posixMemalign (_alignment size : Nat) : AllocHook := aligned size

def alignedAlloc (_alignment size : Nat) : AllocHook := aligned size

def memalign (_alignment size : Nat) : AllocHook := aligned size

def valloc (size : Nat) : AllocHook := aligned size

def pvalloc (size : Nat) : AllocHook := aligned size

end AllocHook

/-- A call of the target into the interposer. -/
inductive HookCall where
  | malloc (size : Nat)
  | calloc (nmemb size : Nat)
  | posixMemalign (alignment size : Nat)
  | alignedAlloc (alignment size : Nat)
  | memalign (alignment size : Nat)
  | valloc (size : Nat)
  | pvalloc (size : Nat)
  | free (ptr : Nat)
  | realloc (ptr size : Nat)
deriving Repr, DecidableEq

/-- Where a thread is inside a hook: about to perform the named access.
`ret` carries the pointer returned and the block that is the target's
again from then on; the two differ when `realloc` fails. -/
inductive HookPc where
  | idle
  | realAlloc (h : AllocHook)
  | emitAlloc (h : AllocHook) (p : Nat)
  | emitFree (ptr : Nat)
  | realFree (ptr : Nat)
  | emitRelease (ptr size : Nat)
  | realRealloc (ptr size : Nat)
  | emitRealloc (ptr size : Nat) (p : Option Nat)
  | ret (value back : Option Nat)
deriving DecidableEq

/-- Entry of a hook, up to its first shared access. `realloc` of NULL is
`malloc`; `realloc` of an arena block migrates it, which is a `malloc`
and a copy. -/
def hookCall (arena : Nat) : HookCall → HookPc
  | .malloc size => .realAlloc (.malloc size)
  | .calloc nmemb size => .realAlloc (.calloc nmemb size)
  | .posixMemalign alignment size => .realAlloc (.posixMemalign alignment size)
  | .alignedAlloc alignment size => .realAlloc (.alignedAlloc alignment size)
  | .memalign alignment size => .realAlloc (.memalign alignment size)
  | .valloc size => .realAlloc (.valloc size)
  | .pvalloc size => .realAlloc (.pvalloc size)
  | .free ptr =>
      if ptr = 0 then .ret none none
      else if hvIsBootstrapPtr arena ptr then .ret none none
      else .emitFree ptr
  | .realloc ptr size =>
      if ptr = 0 then .realAlloc (.malloc size)
      else if hvIsBootstrapPtr arena ptr then .realAlloc (.malloc size)
      else .emitRelease ptr size

/-- NULL and arena blocks are not the real allocator's to free. -/
theorem hookCall_free_skip {arena ptr : Nat}
    (h : ptr = 0 ∨ hvIsBootstrapPtr arena ptr = true) :
    hookCall arena (.free ptr) = .ret none none := by
  rcases h with h | h <;> simp [hookCall, h]

theorem hookCall_free {arena ptr : Nat} (h : ¬ (ptr = 0 ∨ hvIsBootstrapPtr arena ptr = true)) :
    hookCall arena (.free ptr) = .emitFree ptr := by
  obtain ⟨h0, hb⟩ := not_or.mp h
  rw [hookCall, if_neg h0, if_neg hb]

theorem hookCall_realloc_skip {arena ptr size : Nat}
    (h : ptr = 0 ∨ hvIsBootstrapPtr arena ptr = true) :
    hookCall arena (.realloc ptr size) = .realAlloc (.malloc size) := by
  rcases h with h | h <;> simp [hookCall, h]

theorem hookCall_realloc {arena ptr size : Nat}
    (h : ¬ (ptr = 0 ∨ hvIsBootstrapPtr arena ptr = true)) :
    hookCall arena (.realloc ptr size) = .emitRelease ptr size := by
  obtain ⟨h0, hb⟩ := not_or.mp h
  rw [hookCall, if_neg h0, if_neg hb]

/-- The block a call hands over to the interposer, if any. -/
def HookPc.given : HookPc → Option Nat
  | .emitFree ptr => some ptr
  | .emitRelease ptr _ => some ptr
  | _ => none

/-! ## Threads, allocator and ring together -/

/-- What the world outside answers during one step: the clock, the
allocator's usable size and the result of the real function. -/
structure HookEnv where
  now : Nat
  usable : Nat
  result : Option Nat
deriving Repr, DecidableEq

/-- `blocks` maps each live block of the real allocator to the size of the
last successful request for it. `held` is history: the blocks whose
allocating call has returned and that no call has been given since. -/
structure HookSys where
  blocks : Nat → Option Nat
  ring : List HvPush
  pc : Nat → HookPc
  held : Nat → Bool

def HookSys.init : HookSys where
  blocks := fun _ => none
  ring := []
  pc := fun _ => .idle
  held := fun _ => false

/-- `hv_emit` on thread `t`. -/
def HookSys.emit (s : HookSys) (t : Nat) (env : HookEnv) (op : HvOp) (ptr size : Nat) :
    HookSys :=
  { s with ring := s.ring ++ [⟨env.now, ptr, size, hvUsable env.usable, t, op.code⟩] }

/-- Leave thread `t` at `pc`. -/
def HookSys.goto (s : HookSys) (t : Nat) (pc : HookPc) : HookSys :=
  { s with pc := Function.update s.pc t pc }

def HookSys.setBlock (s : HookSys) (p : Nat) (size : Option Nat) : HookSys :=
  { s with blocks := Function.update s.blocks p size }

/-- A block the real allocator may hand out. -/
def HookSys.Fresh (arena : Nat) (s : HookSys) (p : Nat) : Prop :=
  p ≠ 0 ∧ hvIsBootstrapPtr arena p = false ∧ s.blocks p = none

instance (arena : Nat) (s : HookSys) (p : Nat) : Decidable (s.Fresh arena p) :=
  inferInstanceAs (Decidable (_ ∧ _ ∧ _))

/-- One shared access of the hook thread `t` is in. The real `realloc` of
size zero frees the block and returns NULL; any other NULL leaves it. -/
def HookSys.access (arena : Nat) (s : HookSys) (t : Nat) (env : HookEnv) : Option HookSys :=
  match s.pc t with
  | .idle => none
  | .realAlloc h =>
      match env.result with
      | none => some (s.goto t (.ret none none))
      | some p =>
          if s.Fresh arena p ∧ h.request < 2 ^ 64 then
            some ((s.setBlock p (some h.request)).goto t (.emitAlloc h p))
          else none
  | .emitAlloc h p => some ((s.emit t env h.op p h.reported).goto t (.ret (some p) (some p)))
  | .emitFree ptr => some ((s.emit t env .free ptr 0).goto t (.realFree ptr))
  | .realFree ptr => some ((s.setBlock ptr none).goto t (.ret none none))
  | .emitRelease ptr size =>
      some ((s.emit t env .free ptr 0).goto t (.realRealloc ptr size))
  | .realRealloc ptr size =>
      match env.result with
      | none =>
          if size = 0 then some ((s.setBlock ptr none).goto t (.emitRealloc ptr size none))
          else some (s.goto t (.emitRealloc ptr size none))
      | some p =>
          if size = 0 then none
          else if p = ptr then
            some ((s.setBlock ptr (some size)).goto t (.emitRealloc ptr size (some p)))
          else if s.Fresh arena p then
            some (((s.setBlock ptr none).setBlock p (some size)).goto t
              (.emitRealloc ptr size (some p)))
          else none
  | .emitRealloc _ size (some p) =>
      some ((s.emit t env .realloc p size).goto t (.ret (some p) (some p)))
  | .emitRealloc ptr size none =>
      some ((s.emit t env .realloc ptr size).goto t
        (.ret none (if size = 0 then none else some ptr)))
  | .ret _ back =>
      some { s.goto t .idle with
        held := match back with
          | some p => Function.update s.held p true
          | none => s.held }

/-- A scheduling decision: a thread of the target calls a hook, or the
hook it is in performs its next access. -/
inductive HookAct where
  | call (t : Nat) (c : HookCall)
  | access (t : Nat) (env : HookEnv)
deriving Repr, DecidableEq

def HookAct.thread : HookAct → Nat
  | .call t _ => t
  | .access t _ => t

def HookSys.step (arena : Nat) (s : HookSys) : HookAct → Option HookSys
  | .call t c =>
      if s.pc t = .idle then
        some { s.goto t (hookCall arena c) with
          held := match (hookCall arena c).given with
            | some p => Function.update s.held p false
            | none => s.held }
      else none
  | .access t env => s.access arena t env

end Heapviz
