import Mathlib.Algebra.Group.Nat.Defs
import Nachos.Lib.Bytes

/-!
# A processor of the i386 family

The moves, the stack operations and the calls of its assembly language, on a memory of bytes that
is addressed by words. Operands stand in the order of the assembler: the source comes first.
-/
namespace I386

open Bytes (Byte)

abbrev Addr := BitVec 32

abbrev Memory := Addr → Byte

variable {m m' : Memory} {a b x : Addr} {w : BitVec 32}

/-! ## Memory -/

/-- A stretch of addresses, which may go on from the last one to the first. -/
structure Stretch where
  start : Addr
  size : ℕ

namespace Stretch

def Has (s : Stretch) (x : Addr) : Prop := (x - s.start).toNat < s.size

instance (s : Stretch) (x : Addr) : Decidable (s.Has x) := inferInstanceAs (Decidable (_ < _))

/-- No address is in both. -/
def Apart (s s' : Stretch) : Prop := ∀ x, s.Has x → ¬s'.Has x

theorem Apart.symm {s s' : Stretch} (h : s.Apart s') : s'.Apart s := fun x hx hx' => h x hx' hx

end Stretch

/-- The four bytes of a word. -/
def word (a : Addr) : Stretch := ⟨a, 4⟩

def load (m : Memory) (a : Addr) : BitVec 32 := m (a + 3) ++ m (a + 2) ++ m (a + 1) ++ m a

def store (m : Memory) (a : Addr) (w : BitVec 32) : Memory := fun x =>
  if (word a).Has x then w.extractLsb' (8 * (x - a).toNat) 8 else m x

theorem store_of_not_has (h : ¬(word a).Has x) : store m a w x = m x := if_neg h

theorem word_has_add {k : ℕ} (hk : k < 4) : (word a).Has (a + BitVec.ofNat 32 k) := by
  simp only [word, Stretch.Has]
  bv_omega

theorem load_congr (h : ∀ x, (word a).Has x → m x = m' x) : load m a = load m' a := by
  have h0 : m a = m' a := h a (by simp [word, Stretch.Has])
  have h1 : m (a + 1) = m' (a + 1) := h _ (word_has_add (k := 1) (by decide))
  have h2 : m (a + 2) = m' (a + 2) := h _ (word_has_add (k := 2) (by decide))
  have h3 : m (a + 3) = m' (a + 3) := h _ (word_has_add (k := 3) (by decide))
  rw [load, load, h0, h1, h2, h3]

@[simp] theorem load_store (m : Memory) (a : Addr) (w : BitVec 32) : load (store m a w) a = w := by
  have hbyte : ∀ k < 4, store m a w (a + BitVec.ofNat 32 k) = w.extractLsb' (8 * k) 8 := by
    intro k hk
    have hoff : (a + BitVec.ofNat 32 k - a).toNat = k := by bv_omega
    rw [store, if_pos (word_has_add hk), hoff]
  have h0 := hbyte 0 (by decide)
  have h1 := hbyte 1 (by decide)
  have h2 := hbyte 2 (by decide)
  have h3 := hbyte 3 (by decide)
  rw [BitVec.add_zero] at h0
  have hw := Bytes.toWord_ofWord w []
  rw [Bytes.ofWord, List.append_nil] at hw
  refine Eq.trans ?_ hw
  rw [load]
  simp only [BitVec.ofNat_eq_ofNat] at h1 h2 h3 ⊢
  rw [h0, h1, h2, h3]
  rfl

theorem load_store_apart (h : (word a).Apart (word b)) : load (store m b w) a = load m a :=
  load_congr fun x hx => store_of_not_has (h x hx)

/-- A word inside of a stretch. -/
theorem has_of_word {s : Stretch} {i : Addr} (hi : i.toNat + 4 ≤ s.size) (hs : s.size ≤ 2 ^ 32)
    (h : (word (s.start + i)).Has x) : s.Has x := by
  simp only [word, Stretch.Has] at h ⊢
  bv_omega

/-- Words at different places of one array. -/
theorem word_apart {i j : Addr} (h : 4 ≤ (i - j).toNat ∧ 4 ≤ (j - i).toNat) :
    (word (a + i)).Apart (word (a + j)) := by
  intro x hx hx'
  simp only [word, Stretch.Has] at hx hx'
  bv_omega

/-- Words that are stored one after the other. -/
def stores (m : Memory) (l : List (Addr × BitVec 32)) : Memory :=
  l.foldl (fun m p => store m p.1 p.2) m

theorem stores_of_not_has {l : List (Addr × BitVec 32)} (h : ∀ p ∈ l, ¬(word p.1).Has x) :
    stores m l x = m x := by
  induction l generalizing m with
  | nil => rfl
  | cons p l ih =>
    obtain ⟨hp, hl⟩ := List.forall_mem_cons.mp h
    rw [stores, List.foldl_cons]
    exact (ih hl).trans (store_of_not_has hp)

theorem load_stores_apart {l : List (Addr × BitVec 32)} (h : ∀ p ∈ l, (word a).Apart (word p.1)) :
    load (stores m l) a = load m a :=
  load_congr fun x hx => stores_of_not_has fun p hp => h p hp x hx

/-- The words of an array that begins at `o`, each with its place in it. -/
def words (o : Addr) (l : List (Addr × BitVec 32)) : List (Addr × BitVec 32) :=
  l.map fun p => (o + p.1, p.2)

/-- What is stored into the array stays, when the words do not overlap. -/
theorem load_words {l : List (Addr × BitVec 32)} {o i : Addr}
    (hl : (l.map Prod.fst).Pairwise fun i j => 4 ≤ (i - j).toNat ∧ 4 ≤ (j - i).toNat)
    (h : (i, w) ∈ l) : load (stores m (words o l)) (o + i) = w := by
  induction l generalizing m with
  | nil => cases h
  | cons p l ih =>
    rw [List.map_cons] at hl
    obtain ⟨hp, hl⟩ := List.pairwise_cons.mp hl
    rw [words, List.map_cons, stores, List.foldl_cons]
    rcases List.mem_cons.mp h with rfl | h
    · refine (load_stores_apart fun q hq => ?_).trans (load_store m (o + i) w)
      obtain ⟨r, hr, rfl⟩ := List.mem_map.mp hq
      exact word_apart (hp r.1 (List.mem_map_of_mem hr))
    · exact ih hl h

/-- Another word of the array. -/
theorem load_words_other {l : List (Addr × BitVec 32)} {o i : Addr}
    (hl : ∀ j ∈ l.map Prod.fst, 4 ≤ (i - j).toNat ∧ 4 ≤ (j - i).toNat) :
    load (stores m (words o l)) (o + i) = load m (o + i) := by
  refine load_stores_apart fun q hq => ?_
  obtain ⟨r, hr, rfl⟩ := List.mem_map.mp hq
  exact word_apart (hl r.1 (List.mem_map_of_mem hr))

/-! ## Instructions -/

inductive Reg
  | eax | ebx | ecx | edx | esi | edi | ebp | esp
  deriving DecidableEq

inductive Operand
  | reg (r : Reg)
  /-- `disp(%base)`. -/
  | based (disp : Addr) (base : Reg)
  | absolute (a : Addr)

inductive Instr
  | movl (src dst : Operand)
  | pushl (src : Reg)
  | popl (dst : Reg)
  /-- `call *%target`. -/
  | call (target : Reg)
  | ret

structure Cpu where
  reg : Reg → BitVec 32
  eip : Addr
  mem : Memory

namespace Cpu

def read (c : Cpu) : Operand → BitVec 32
  | .reg r => c.reg r
  | .based disp base => load c.mem (c.reg base + disp)
  | .absolute a => load c.mem a

def setReg (c : Cpu) (r : Reg) (w : BitVec 32) : Cpu := { c with reg := Function.update c.reg r w }

def setMem (c : Cpu) (a : Addr) (w : BitVec 32) : Cpu := { c with mem := store c.mem a w }

def write (c : Cpu) (w : BitVec 32) : Operand → Cpu
  | .reg r => c.setReg r w
  | .based disp base => c.setMem (c.reg base + disp) w
  | .absolute a => c.setMem a w

/-- A word is put on the stack. -/
def push (c : Cpu) (w : BitVec 32) : Cpu :=
  (c.setReg .esp (c.reg .esp - 4)).setMem (c.reg .esp - 4) w

def jump (c : Cpu) (a : Addr) : Cpu := { c with eip := a }

/-- The return to the address on the stack. -/
def ret (c : Cpu) : Cpu := (c.setReg .esp (c.reg .esp + 4)).jump (load c.mem (c.reg .esp))

theorem ret_esp (c : Cpu) : c.ret.reg .esp = c.reg .esp + 4 :=
  Function.update_self Reg.esp _ c.reg

theorem ret_reg (c : Cpu) {r : Reg} (hr : r ≠ .esp) : c.ret.reg r = c.reg r :=
  Function.update_of_ne hr _ _

/-- One instruction; `next` is the address of the one after it. -/
def exec (next : Addr) : Instr → Cpu → Cpu
  | .movl src dst, c => (c.write (c.read src) dst).jump next
  | .pushl src, c => (c.push (c.reg src)).jump next
  | .popl dst, c =>
    ((c.setReg .esp (c.reg .esp + 4)).setReg dst (load c.mem (c.reg .esp))).jump next
  | .call target, c => (c.push next).jump (c.reg target)
  | .ret, c => c.ret

/-- Code that does not branch before its end; `place` says where the assembler has put the
instructions. -/
def run (place : ℕ → Addr) : ℕ → List Instr → Cpu → Cpu
  | _, [], c => c
  | k, i :: is, c => run place (k + 1) is (exec (place (k + 1)) i c)

theorem run_append (place : ℕ → Addr) (is js : List Instr) (k : ℕ) (c : Cpu) :
    run place k (is ++ js) c = run place (k + is.length) js (run place k is c) := by
  induction is generalizing k c with
  | nil => rfl
  | cons i is ih =>
    rw [List.cons_append, run, ih, List.length_cons, Nat.add_right_comm, Nat.add_assoc]
    rfl

end Cpu

/-! ## Calls -/

/-- What lies on the stack from `a` on. -/
def Stretch.Above (s : Stretch) (a x : Addr) : Prop :=
  s.Has x ∧ (a - s.start).toNat ≤ (x - s.start).toNat

/-- What a caller may rely on when a function with `params` arguments returns, by the calling
convention: the stack pointer is as before the call, and so are four of the registers and what lies
above the arguments on the stack. -/
structure Returned (params : ℕ) (stack : Stretch) (c d : Cpu) : Prop where
  eip : d.eip = load c.mem (c.reg .esp)
  esp : d.reg .esp = c.reg .esp + 4
  kept : ∀ r ∈ [Reg.ebx, .esi, .edi, .ebp], d.reg r = c.reg r
  mem : ∀ x, stack.Above (c.reg .esp + 4 + BitVec.ofNat 32 (4 * params)) x → d.mem x = c.mem x

section

variable {next : Addr} {r : Reg} {c d : Cpu} {params : ℕ} {stack : Stretch}

theorem Cpu.call_esp : (c.exec next (.call r)).reg .esp = c.reg .esp - 4 :=
  Function.update_self Reg.esp _ c.reg

theorem Cpu.call_reg {r' : Reg} (hr : r' ≠ .esp) :
    (c.exec next (.call r)).reg r' = c.reg r' :=
  Function.update_of_ne hr _ _

/-- The return address is put below what is on the stack. -/
theorem Cpu.call_load (c : Cpu) (next : Addr) (r : Reg) :
    load (c.exec next (.call r)).mem (c.reg .esp) = load c.mem (c.reg .esp) := by
  refine load_store_apart fun x hx hx' => ?_
  simp only [word, Stretch.Has] at hx hx'
  bv_omega

/-- A function that does nothing but return. -/
theorem Cpu.returned_ret (c : Cpu) : Returned params stack c c.ret where
  eip := rfl
  esp := c.ret_esp
  kept r hr := by
    refine c.ret_reg ?_
    rintro rfl
    revert hr
    decide
  mem _ _ := rfl

namespace Returned

theorem esp_call (h : Returned params stack (c.exec next (.call r)) d) :
    d.reg .esp = c.reg .esp := by
  rw [h.esp, Cpu.call_esp, BitVec.sub_add_cancel]

theorem kept_call (h : Returned params stack (c.exec next (.call r)) d) {r' : Reg}
    (hr : r' ∈ [Reg.ebx, .esi, .edi, .ebp]) : d.reg r' = c.reg r' := by
  rw [h.kept r' hr, Cpu.call_reg]
  rintro rfl
  revert hr
  decide

/-- A function without arguments leaves the top of the stack alone. -/
theorem load_call (h : Returned 0 stack (c.exec next (.call r)) d) (hsize : stack.size ≤ 2 ^ 32)
    (hs : (c.reg .esp - stack.start).toNat + 4 ≤ stack.size) :
    load d.mem (c.reg .esp) = load c.mem (c.reg .esp) := by
  rw [← c.call_load next r]
  refine load_congr fun x hx => h.mem x ?_
  rw [Cpu.call_esp, BitVec.sub_add_cancel, Nat.mul_zero, BitVec.add_zero]
  simp only [word, Stretch.Has, Stretch.Above] at hx ⊢
  constructor
  · bv_omega
  · bv_omega

end Returned

end

/-- How far code gets that calls functions, which return by the convention if they do. The list
has the functions called so far, each with the processor at its entry. -/
inductive Reaches (params : Addr → ℕ) (stack : Stretch) (place : ℕ → Addr) :
    ℕ → List Instr → Cpu → List Cpu → Cpu → Prop
  | here (k : ℕ) (is : List Instr) (c : Cpu) : Reaches params stack place k is c [] c
  | next {k : ℕ} {i : Instr} {is : List Instr} {c d : Cpu} {calls : List Cpu}
      (hi : ∀ r, i ≠ .call r)
      (h : Reaches params stack place (k + 1) is (c.exec (place (k + 1)) i) calls d) :
      Reaches params stack place k (i :: is) c calls d
  | inside (k : ℕ) (r : Reg) (is : List Instr) (c : Cpu) :
      Reaches params stack place k (.call r :: is) c [c.exec (place (k + 1)) (.call r)]
        (c.exec (place (k + 1)) (.call r))
  | back {k : ℕ} {r : Reg} {is : List Instr} {c c' d : Cpu} {calls : List Cpu}
      (hret : Returned (params (c.exec (place (k + 1)) (.call r)).eip) stack
        (c.exec (place (k + 1)) (.call r)) c')
      (h : Reaches params stack place (k + 1) is c' calls d) :
      Reaches params stack place k (.call r :: is) c (c.exec (place (k + 1)) (.call r) :: calls) d

namespace Reaches

variable {params : Addr → ℕ} {stack : Stretch} {place : ℕ → Addr} {k : ℕ} {i : Instr} {r : Reg}
  {is : List Instr} {c d : Cpu} {calls : List Cpu}

theorem after (h : Reaches params stack place k (i :: is) c calls d) (hi : ∀ r, i ≠ .call r) :
    calls = [] ∨ Reaches params stack place (k + 1) is (c.exec (place (k + 1)) i) calls d := by
  cases h with
  | here => exact .inl rfl
  | next _ h => exact .inr h
  | inside => exact absurd rfl (hi _)
  | back => exact absurd rfl (hi _)

theorem called (h : Reaches params stack place k (.call r :: is) c calls d) :
    calls = [] ∨ ∃ rest, calls = c.exec (place (k + 1)) (.call r) :: rest ∧ (rest = [] ∨
      ∃ c', Returned (params (c.reg r)) stack (c.exec (place (k + 1)) (.call r)) c' ∧
        Reaches params stack place (k + 1) is c' rest d) := by
  cases h with
  | here => exact .inl rfl
  | next hi => exact absurd rfl (hi r)
  | inside => exact .inr ⟨[], rfl, .inl rfl⟩
  | back hret h => exact .inr ⟨_, rfl, .inr ⟨_, hret, h⟩⟩

theorem no_calls (h : Reaches params stack place k is c calls d)
    (his : ∀ i ∈ is, ∀ r, i ≠ .call r) : calls = [] := by
  induction h with
  | here => rfl
  | next _ _ ih => exact ih fun i hi => his i (List.mem_cons_of_mem _ hi)
  | inside k r => exact absurd rfl (his _ List.mem_cons_self r)
  | back => exact absurd rfl (his _ List.mem_cons_self _)

end Reaches

end I386
