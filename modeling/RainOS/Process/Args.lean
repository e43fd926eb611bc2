import Mathlib.Data.List.Find
import RainOS.Process.Code

/-!
# Arguments of system calls

syscall.c, and the loop of `sys_exec` over the pointers of `argv`. The kernel goes through the addresses that a process
gives it, after it has compared them with the size of the process in 32-bit arithmetic. The size is below `KERNBASE`, so no
sum that passes has wrapped around, and only memory of the process is read.
-/

namespace RainOS.Args

open List Process

/-- The memory of the process, `proc->sz` and `proc->tf->esp`. -/
structure User where
  mem : Mem
  sz : Nat
  esp : Nat

def fetchint (u : User) (addr : Nat) : Option Nat :=
  if addr ≥ u.sz ∨ (addr + 4) % 2 ^ 32 > u.sz then none else some (u.mem.word 4 addr)

/-- The length of the string. -/
def fetchstr (u : User) (addr : Nat) : Option Nat :=
  if addr ≥ u.sz then none else ((range' addr (u.sz - addr)).find? fun s => u.mem s = 0).map (· - addr)

def argint (u : User) (n : Nat) : Option Nat := fetchint u ((u.esp + 4 + 4 * n) % 2 ^ 32)

def argptr (u : User) (n : Nat) (size : Int) : Option Nat := do
  let i ← argint u n
  if i ≥ u.sz ∨ (i + size) % 2 ^ 32 > u.sz then none else return i

/-- The address of the string and its length. -/
def argstr (u : User) (n : Nat) : Option (Nat × Nat) := do
  let addr ← argint u n
  let len ← fetchstr u addr
  return (addr, len)

/-- The loop of `sys_exec`, with the number of entries of `argv` that are left. -/
def argvLoop (u : User) (uargv : Nat) : Nat → Nat → Option (List (Nat × Nat))
  | 0, _ => none
  | left + 1, i => do
    let uarg ← fetchint u ((uargv + 4 * i) % 2 ^ 32)
    if uarg = 0 then return []
    let len ← fetchstr u uarg
    let argv ← argvLoop u uargv left (i + 1)
    return (uarg, len) :: argv

/-- The path and the arguments that `exec` is called with. -/
def sysExec (u : User) : Option ((Nat × Nat) × List (Nat × Nat)) := do
  let path ← argstr u 0
  let uargv ← argint u 1
  let argv ← argvLoop u uargv maxarg 0
  return (path, argv)

variable {u u' : User} {addr len left i uargv : Nat} {argv : List (Nat × Nat)}

/-- A string of the process, with its NUL. -/
structure Str (u : User) (a : Nat × Nat) : Prop where
  inside : a.1 + a.2 < u.sz
  bytes : ∀ k < a.2, u.mem (a.1 + k) ≠ 0
  nul : u.mem (a.1 + a.2) = 0

theorem str_of_fetchstr (h : fetchstr u addr = some len) : Str u (addr, len) := by
  rw [fetchstr] at h
  split at h
  · cases h
  · obtain ⟨s, hfind, rfl⟩ := Option.map_eq_some_iff.mp h
    simp only [find?_range'_eq_some, decide_eq_true_eq, mem_range'_1] at hfind
    obtain ⟨hnul, hin, hbytes⟩ := hfind
    have hend : addr + (s - addr) = s := Nat.add_sub_cancel' hin.1
    refine ⟨show addr + (s - addr) < u.sz by omega, ?_, show u.mem (addr + (s - addr)) = 0 by rw [hend, hnul]⟩
    intro k (hk : k < s - addr)
    simpa using hbytes (addr + k) (by omega) (by omega)

theorem argvLoop_spec (h : argvLoop u uargv left i = some argv) : argv.length < left ∧ ∀ a ∈ argv, Str u a := by
  induction left generalizing i argv with
  | zero => cases h
  | succ left ih =>
    obtain ⟨uarg, -, h⟩ := Option.bind_eq_some_iff.mp h
    split at h
    · obtain rfl := Option.some.inj h
      simp
    · obtain ⟨len, hlen, h⟩ := Option.bind_eq_some_iff.mp h
      obtain ⟨rest, hrest, h⟩ := Option.bind_eq_some_iff.mp h
      obtain rfl := Option.some.inj h
      obtain ⟨hcount, hstr⟩ := ih hrest
      exact ⟨Nat.succ_lt_succ hcount, forall_mem_cons.mpr ⟨str_of_fetchstr hlen, hstr⟩⟩

section

variable (hsz : u.sz < kernbase) (hu : u'.sz = u.sz ∧ u'.esp = u.esp) (hsame : ∀ a < u.sz, u'.mem a = u.mem a)
include hu hsame

theorem fetchstr_congr (addr : Nat) : fetchstr u' addr = fetchstr u addr := by
  rw [fetchstr, fetchstr, hu.1, find?_congr]
  intro s hs
  rw [mem_range'_1] at hs
  rw [hsame s (by omega)]

include hsz

theorem fetchint_congr (addr : Nat) : fetchint u' addr = fetchint u addr := by
  change u.sz < 2147483648 at hsz
  rw [fetchint, fetchint, hu.1]
  split
  · rfl
  · rw [Mem.word_congr]
    intro k hlo hhi
    exact hsame k (by omega)

theorem argvLoop_congr (uargv left i : Nat) : argvLoop u' uargv left i = argvLoop u uargv left i := by
  induction left generalizing i with
  | zero => rfl
  | succ left ih => simp only [argvLoop, fetchint_congr hsz hu hsame, fetchstr_congr hu hsame, ih]

/-- What `sys_exec` does depends only on memory of the process, and it passes on fewer than `MAXARG` strings, which end
there. A block that `argptr` accepts ends there too, whatever the sign of its size. -/
theorem args_confined : sysExec u' = sysExec u ∧
    (∀ path argv, sysExec u = some (path, argv) → argv.length < maxarg ∧ ∀ a ∈ path :: argv, Str u a) ∧
    ∀ n p, ∀ size : Int, -2 ^ 31 ≤ size → size < 2 ^ 31 → argptr u n size = some p →
      p < u.sz ∧ 0 ≤ p + size ∧ p + size ≤ u.sz := by
  refine ⟨?_, ?_, ?_⟩
  · simp only [sysExec, argstr, argint, hu.2, fetchint_congr hsz hu hsame, fetchstr_congr hu hsame,
      argvLoop_congr hsz hu hsame]
  · intro path argv h
    obtain ⟨_, hpath, h⟩ := Option.bind_eq_some_iff.mp h
    obtain ⟨uargv, -, h⟩ := Option.bind_eq_some_iff.mp h
    obtain ⟨_, hloop, h⟩ := Option.bind_eq_some_iff.mp h
    obtain ⟨addr, -, hpath⟩ := Option.bind_eq_some_iff.mp hpath
    obtain ⟨len, hlen, hpath⟩ := Option.bind_eq_some_iff.mp hpath
    cases hpath
    cases h
    obtain ⟨hcount, hstr⟩ := argvLoop_spec hloop
    exact ⟨hcount, forall_mem_cons.mpr ⟨str_of_fetchstr hlen, hstr⟩⟩
  · intro n p size hlo hhi h
    change u.sz < 2147483648 at hsz
    obtain ⟨i, -, h⟩ := Option.bind_eq_some_iff.mp h
    split at h
    · cases h
    · obtain rfl := Option.some.inj h
      omega

end

/-- The path and the one argument are the empty string at 200. -/
def oneArg (x : UInt8) : User where
  mem a := if a < 400 then (((Mem.setWord (fun _ => 0) 4 100 200).setWord 4 104 300).setWord 4 300 200) a else x
  sz := 400
  esp := 96

theorem args_confined_one : sysExec (oneArg 7) = some ((200, 0), [(200, 0)]) ∧ Str (oneArg 0) (200, 0) := by
  have hu : (oneArg 7).sz = (oneArg 0).sz ∧ (oneArg 7).esp = (oneArg 0).esp := ⟨rfl, rfl⟩
  have hsame : ∀ a < (oneArg 0).sz, (oneArg 7).mem a = (oneArg 0).mem a := fun a ha => (if_pos ha).trans (if_pos ha).symm
  have hexec : sysExec (oneArg 0) = some ((200, 0), [(200, 0)]) := by decide +kernel
  obtain ⟨heq, hstr, -⟩ := args_confined (by decide) hu hsame
  exact ⟨heq.trans hexec, (hstr _ _ hexec).2 _ (.head _)⟩

end RainOS.Args
