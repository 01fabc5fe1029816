import Nachos.Lib.Numeral
import Nachos.Userprog.Terminal

/-!
# Reading an integer

`ReadInt` for whatever is typed: what it takes from the console, and what it makes of it.
-/
namespace Nachos

open Bytes (Byte)
open Command (onSecond)
open Numeral (Text)

namespace Services

open Handler

variable {S : Type} (k : Services S)

/-- A store into an array. Behind the end of it the program is stopped. -/
def storeAt {α : Type} (array : List α) (i : ℕ) (a : α) : Handler S (List α) :=
  if i < array.length then pure (array.set i a) else Command.stop

/-- The loop over digits of `Exception_ReadInt` with its array and its bound. -/
def readInto : ℕ → List Byte → ℕ → Byte → Handler S (List Byte × ℕ)
  | 0, _, _, _ => Command.stop
  | n + 1, numString, length, c =>
    if isDigit c ∧ length < 11 then do
      let numString ← storeAt numString length c
      let next ← k.readOne
      readInto n numString (length + 1) next
    else pure (numString, length)

/-- `Exception_ReadInt` with every store into `num_string` checked. -/
def exceptionReadIntChecked (fuel : ℕ) : Handler S Unit := do
  let sign ← k.skipBlanks fuel
  let numString := List.replicate 11 0
  let numString ← if isDigit sign then storeAt numString 0 sign else pure numString
  let c ← k.readOne
  let (numString, length) ← k.readInto 12 numString (if isDigit sign then 1 else 0) c
  let ret := (numString.take length).foldl (fun ret c => ret * 10 + ((c.toNat : Int) - 48)) 0
  let ret := if 2147483647 < ret then 0 else ret
  writeRegister 2 (BitVec.ofInt 32 (if sign = 45 then -ret else ret))

variable {length n : ℕ} {numString : List Byte} {c : Byte}

theorem readDigits_of_not (hc : ¬(isDigit c ∧ 0 < n)) : k.readDigits n c = pure [] := by
  cases n with
  | zero => rfl
  | succ n => rw [readDigits, if_neg fun h => hc ⟨h, n.succ_pos⟩]

theorem take_set {α : Type} {array : List α} {i : ℕ} (hi : i < array.length) (a : α) :
    (array.set i a).take (i + 1) = array.take i ++ [a] := by
  rw [List.take_succ_eq_append_getElem (by rwa [List.length_set]), List.take_set_of_le le_rfl,
    List.getElem_set_self]

/-- The loop stores each digit behind the ones before. -/
theorem readInto_eq (hn : 11 < length + n) (hlength : length ≤ 11) (hsize : numString.length = 11)
    (c : Byte) : k.readInto n numString length c = (do
      let rest ← k.readDigits (11 - length) c
      pure (numString.take length ++ rest ++ numString.drop (length + rest.length),
        length + rest.length)) := by
  induction n generalizing length numString c with
  | zero => omega
  | succ n ih =>
    rw [readInto]
    split
    · rename_i h
      obtain ⟨hc, hlt⟩ := h
      rw [storeAt, if_pos (by omega), pure_bind, show 11 - length = (11 - (length + 1)) + 1 by omega,
        readDigits, if_pos hc]
      simp only [bind_assoc, pure_bind]
      congr 1
      funext next
      rw [ih (show 11 < length + 1 + n by omega) hlt (by rw [List.length_set, hsize]) next]
      congr 1
      funext rest
      have hlen : length + 1 + rest.length = length + (c :: rest).length := by
        rw [List.length_cons]
        omega
      rw [take_set (by omega), List.drop_set_of_lt (by omega), hlen,
        List.append_assoc (numString.take length)]
      rfl
    · rename_i h
      rw [readDigits_of_not k fun hc => h ⟨hc.1, by omega⟩, pure_bind]
      simp

theorem take_stored (hlength : length ≤ numString.length) (rest : List Byte) :
    (numString.take length ++ rest ++ numString.drop (length + rest.length)).take
      (length + rest.length) = numString.take length ++ rest :=
  List.take_left' (by rw [List.length_append, List.length_take, Nat.min_eq_left hlength])

/-- No store of `Exception_ReadInt` is outside `num_string`. -/
theorem exceptionReadIntChecked_eq (fuel : ℕ) :
    k.exceptionReadIntChecked fuel = k.exceptionReadInt fuel := by
  unfold exceptionReadIntChecked exceptionReadInt
  congr 1
  funext sign
  have hloop : ∀ (numString : List Byte) (length : ℕ) (c : Byte), length ≤ 11 →
      numString.length = 11 → k.readInto 12 numString length c = _ := fun numString length c h1 h2 =>
    k.readInto_eq (by omega) h1 h2 c
  cases hsign : isDigit sign with
  | true =>
    simp only [if_true, storeAt, List.length_replicate, Nat.zero_lt_succ, pure_bind]
    congr 1
    funext c
    rw [hloop _ _ _ (by omega) (by simp)]
    simp only [bind_assoc, pure_bind]
    congr 1
    funext rest
    rw [take_stored (by simp)]
    rfl
  | false =>
    simp only [Bool.false_eq_true, if_false, pure_bind]
    congr 1
    funext c
    rw [hloop _ _ _ (by omega) (by simp)]
    simp only [bind_assoc, pure_bind]
    congr 1
    funext rest
    rw [take_stored (by simp)]
    rfl

end Services

namespace Terminal

variable {s s' : Terminal} {r r' : Registers} {c t ch : Byte} {input rest ds : List Byte} {n : ℕ}

/-- A character that `Read(&c, 1)` leaves as it is. -/
def Plain (c : Byte) : Prop := c ≠ EOF ∧ charRead c = c

theorem plain_digit (hc : Numeral.isDigit c = true) : Plain c := by
  have hrange := Numeral.isDigit_iff.mp hc
  have hne : ∀ d : Byte, d.toNat < 48 ∨ 57 < d.toNat → c ≠ d := by
    rintro d hd rfl
    omega
  have h10 : c ≠ 10 := hne 10 (by decide)
  have h1 : c ≠ 1 := hne 1 (by decide)
  refine ⟨hne EOF (by decide), ?_⟩
  rw [charRead, ConsoleRead.endsLine, if_neg]
  simp only [Bool.or_eq_true, decide_eq_true_eq]
  exact not_or.mpr ⟨h10, h1⟩

theorem readOne_plain (hs : s.input = c :: input) (hc : Plain c) :
    (services ch).readOne (r, s) = some (c, r, { s with input := input }) := by
  rw [readOne_char hs hc.1, hc.2]

/-- Blanks before a number are passed over. -/
theorem skipBlanks_run (ch : Byte) {fuel : ℕ} (hfuel : n < fuel) (hc : Plain c) (hblank : c ≠ 32)
    (hs : s.input = List.replicate n 32 ++ c :: input) :
    (services ch).skipBlanks fuel (r, s) = some (c, r, { s with input := input }) := by
  induction n generalizing fuel s with
  | zero =>
    obtain ⟨fuel, rfl⟩ := Nat.exists_eq_add_of_lt hfuel
    rw [Services.skipBlanks, Command.bind_of_some (readOne_plain hs hc), if_neg hblank]
    rfl
  | succ n ih =>
    obtain ⟨fuel, rfl⟩ := Nat.exists_eq_add_of_lt hfuel
    have hspace : Plain 32 := ⟨by decide, by decide⟩
    rw [Services.skipBlanks, Command.bind_of_some (readOne_plain hs hspace), if_pos rfl]
    exact ih (by omega) rfl

/-- `Exception_ReadInt` behind the sign: one character, and then digits as long as `num_string` has
room for `n`. -/
def readNumber (ch : Byte) (n : ℕ) : Handler Terminal (List Byte) :=
  (services ch).readOne >>= (services ch).readDigits n

theorem charRead_of_not_digit (ht : Numeral.isDigit t = false) :
    Numeral.isDigit (charRead t) = false := by
  unfold charRead
  split
  · rfl
  · exact ht

/-- It takes the digits up to the bound, and one character more. -/
theorem readNumber_run (ch : Byte) (hds : ∀ c ∈ ds, Numeral.isDigit c = true)
    (ht : Numeral.isDigit t = false) (hreach : n < ds.length ∨ t ≠ EOF)
    (hs : s.input = ds ++ t :: rest) : readNumber ch n (r, s) =
      some (ds.take n, r, { s with input := (ds ++ t :: rest).drop (min n ds.length + 1) }) := by
  induction ds generalizing n s with
  | nil =>
    have hne : t ≠ EOF := hreach.resolve_left (Nat.not_lt_zero n)
    have hstop := (services ch).readDigits_of_not (n := n) (c := charRead t)
      fun h => Bool.false_ne_true ((charRead_of_not_digit ht).symm.trans h.1)
    rw [readNumber, Command.bind_of_some (readOne_char hs hne), hstop]
    simp
  | cons d ds ih =>
    have hd : Services.isDigit d = true := hds d (by simp)
    rw [readNumber, Command.bind_of_some (readOne_plain hs (plain_digit hd))]
    cases n with
    | zero => simp [Services.readDigits]
    | succ n =>
      have hrun := ih (n := n) (s := { s with input := ds ++ t :: rest })
        (fun c hc => hds c (by simp [hc])) (hreach.imp_left Nat.lt_of_succ_lt_succ) rfl
      rw [Services.readDigits, if_pos hd, ← bind_assoc]
      refine (Command.bind_of_some hrun).trans ?_
      rw [List.length_cons, Nat.add_min_add_right]
      rfl

/-- A command that takes bytes from the input, or none. -/
def Takes (s s' : Registers × Terminal) : Prop := s'.2.input.length ≤ s.2.input.length

instance : Std.Refl Takes := ⟨fun _ => le_rfl⟩

instance : IsTrans (Registers × Terminal) Takes := ⟨fun _ _ _ h₁ h₂ => h₂.trans h₁⟩

instance (ch : Byte) : Command.Keeps Takes (services ch).readOne :=
  ⟨fun _ _ _ h => (readOne_lt h).le⟩

instance (ch : Byte) (n : ℕ) (c : Byte) : Command.Keeps Takes ((services ch).readDigits n c) := by
  induction n generalizing c with
  | zero => unfold Services.readDigits; infer_instance
  | succ n ih => unfold Services.readDigits; infer_instance

/-- Behind the last digit, a byte that looks like `EOF` ends nothing. -/
theorem readNumber_eof (hds : ∀ c ∈ ds, Numeral.isDigit c = true) (hn : ds.length ≤ n)
    (hs : s.input = ds ++ EOF :: rest) {found : List Byte}
    (h : readNumber ch n (r, s) = some (found, r', s')) : s'.input.length < rest.length := by
  induction ds generalizing n s found with
  | nil =>
    obtain ⟨next, ⟨r₁, s₁⟩, hread, h⟩ := Command.bind_eq_some.mp h
    rw [readOne_eof hs] at hread
    have hlt := readOne_lt hread
    have hle : Takes (r₁, s₁) (r', s') := Command.Keeps.keeps _ _ _ h
    exact lt_of_le_of_lt hle hlt
  | cons d ds ih =>
    have hd : Services.isDigit d = true := hds d (by simp)
    rw [readNumber, Command.bind_of_some (readOne_plain hs (plain_digit hd))] at h
    cases n with
    | zero => exact absurd hn (by simp)
    | succ n =>
      rw [Services.readDigits, if_pos hd, ← bind_assoc] at h
      obtain ⟨more, ⟨r₁, s₁⟩, hmore, h⟩ := Command.bind_eq_some.mp h
      cases h
      exact ih (fun c hc => hds c (by simp [hc])) (Nat.le_of_succ_le_succ hn) rfl hmore

/-! ## A number -/

/-- The characters that go into `num_string` before the second read. -/
def first (sign : Byte) : List Byte := if Services.isDigit sign then [sign] else []

/-- What `Exception_ReadInt` makes of its characters. -/
def parsed (sign : Byte) (numString : List Byte) : BitVec 32 :=
  let ret := numString.foldl (fun ret c => ret * 10 + ((c.toNat : Int) - 48)) 0
  let ret := if 2147483647 < ret then 0 else ret
  BitVec.ofInt 32 (if sign = 45 then -ret else ret)

theorem exceptionReadInt_eq (ch : Byte) (fuel : ℕ) : (services ch).exceptionReadInt fuel = (do
    let sign ← (services ch).skipBlanks fuel
    let rest ← readNumber ch (11 - (first sign).length)
    Handler.writeRegister 2 (parsed sign (first sign ++ rest))) := by
  unfold Services.exceptionReadInt
  congr 1
  funext sign
  rw [readNumber, bind_assoc]
  rfl

/-- The first character of a number that is not a blank, and the digits behind it. -/
structure Begins (x : Text) (sign : Byte) (ds : List Byte) : Prop where
  bytes : x.bytes = List.replicate x.blanks 32 ++ sign :: ds
  plain : Plain sign
  blank : sign ≠ 32
  digits : first sign ++ ds = x.digits
  minus : sign = 45 ↔ x.sign = .minus

theorem exists_begins (x : Text) : ∃ sign ds, Begins x sign ds := by
  cases hsign : x.sign with
  | minus =>
    refine ⟨45, x.digits, ?_, ⟨by decide, by decide⟩, by decide, rfl, by simp [hsign]⟩
    rw [Text.bytes, hsign]
    rfl
  | plus =>
    refine ⟨43, x.digits, ?_, ⟨by decide, by decide⟩, by decide, rfl, by simp [hsign]⟩
    rw [Text.bytes, hsign]
    rfl
  | none =>
    obtain ⟨d, ds, hds⟩ := List.exists_cons_of_ne_nil x.nonempty
    have hd : Services.isDigit d = true := x.decimal d (by simp [hds])
    have hrange := Numeral.isDigit_iff.mp hd
    refine ⟨d, ds, ?_, plain_digit hd, ?_, ?_, ?_⟩
    · rw [Text.bytes, hsign, hds]
      rfl
    · rintro rfl
      exact absurd hrange.1 (by decide)
    · rw [first, if_pos hd, hds]
      rfl
    · rw [hsign]
      refine ⟨?_, fun h => by cases h⟩
      rintro rfl
      exact absurd hrange.1 (by decide)

theorem Begins.length {x : Text} {sign : Byte} (hx : Begins x sign ds) :
    x.digits.length = (first sign).length + ds.length := by
  rw [← hx.digits, List.length_append]

theorem Begins.decimal {x : Text} {sign : Byte} (hx : Begins x sign ds) :
    ∀ c ∈ ds, Numeral.isDigit c = true := by
  intro c hc
  apply x.decimal c
  rw [← hx.digits]
  exact List.mem_append_right _ hc

theorem length_first_le (sign : Byte) : (first sign).length ≤ 1 := by
  unfold first
  split <;> simp

variable {x : Text} {sign : Byte} {fuel : ℕ}

/-- The handler where it does not come to an `EOF` behind the digits. -/
theorem exceptionReadInt_run (ch : Byte) (hx : Begins x sign ds) (ht : Numeral.isDigit t = false)
    (hfuel : x.blanks < fuel) (hreach : 11 < x.digits.length ∨ t ≠ EOF)
    (hs : s.input = x.bytes ++ t :: rest) : (services ch).exceptionReadInt fuel (r, s) =
      some ((), r.writeRegister 2 (parsed sign (x.digits.take 11)),
        { s with input := (x.digits ++ t :: rest).drop (min 11 x.digits.length + 1) }) := by
  have hle := length_first_le sign
  have hlength := hx.length
  rw [hx.bytes, List.append_assoc] at hs
  have hskip := skipBlanks_run ch (r := r) hfuel hx.plain hx.blank hs
  have hnumber := readNumber_run ch (n := 11 - (first sign).length) (r := r)
    (s := { s with input := ds ++ t :: rest }) hx.decimal ht (hreach.imp_left fun h => by omega) rfl
  have htake : first sign ++ ds.take (11 - (first sign).length) = x.digits.take 11 := by
    rw [← hx.digits, List.take_append, List.take_of_length_le (by omega : (first sign).length ≤ 11)]
  have hdrop : (ds ++ t :: rest).drop (min (11 - (first sign).length) ds.length + 1) =
      (x.digits ++ t :: rest).drop (min 11 x.digits.length + 1) := by
    have hcount : min 11 x.digits.length + 1 =
        (first sign).length + (min (11 - (first sign).length) ds.length + 1) := by omega
    rw [hcount, ← hx.digits, List.append_assoc, List.drop_length_add_append]
  rw [hdrop] at hnumber
  rw [exceptionReadInt_eq]
  refine (Command.bind_of_some hskip).trans ((Command.bind_of_some hnumber).trans ?_)
  rw [htake]
  rfl

/-- With an `EOF` behind the digits it goes on to the next character. -/
theorem exceptionReadInt_eof (hfuel : x.blanks < fuel) (hle : x.digits.length ≤ 11)
    (hs : s.input = x.bytes ++ EOF :: rest)
    (h : (services ch).exceptionReadInt fuel (r, s) = some ((), r', s')) :
    s'.input.length < rest.length := by
  obtain ⟨sign, ds, hx⟩ := exists_begins x
  have hlength := hx.length
  rw [hx.bytes, List.append_assoc] at hs
  have hskip := skipBlanks_run ch (r := r) hfuel hx.plain hx.blank hs
  rw [exceptionReadInt_eq, Command.bind_of_some hskip] at h
  obtain ⟨found, ⟨r₁, s₁⟩, hnumber, h⟩ := Command.bind_eq_some.mp h
  cases h
  exact readNumber_eof hx.decimal (by omega) rfl hnumber

theorem foldl_eq_value (hds : ∀ c ∈ ds, Numeral.isDigit c = true) :
    ds.foldl (fun ret c => ret * 10 + ((c.toNat : Int) - 48)) 0 = Numeral.value ds := by
  induction ds using List.reverseRecOn with
  | nil => rfl
  | append_singleton ds c ih =>
    have hc := Numeral.isDigit_iff.mp (hds c (by simp))
    rw [Numeral.value_append_singleton, List.foldl_append,
      ih fun c' hc' => hds c' (List.mem_append_left _ hc')]
    simp only [List.foldl_cons, List.foldl_nil]
    omega

theorem toInt_parsed (hds : ∀ c ∈ ds, Numeral.isDigit c = true) (sign : Byte) :
    (parsed sign ds).toInt = if Numeral.value ds ≤ 2147483647 then
      (if sign = 45 then -(Numeral.value ds : Int) else Numeral.value ds) else 0 := by
  have hsmall : ∀ z : Int, -2147483647 ≤ z → z ≤ 2147483647 → (BitVec.ofInt 32 z).toInt = z := by
    intro z h1 h2
    rw [BitVec.toInt_ofInt]
    exact Int.bmod_eq_of_le (by omega) (by omega)
  simp only [parsed, foldl_eq_value hds]
  by_cases hle : Numeral.value ds ≤ 2147483647
  · have hfits : ¬2147483647 < (Numeral.value ds : Int) := by omega
    simp only [if_neg hfits, if_pos hle]
    split
    · exact hsmall _ (by omega) (by omega)
    · exact hsmall _ (by omega) (by omega)
  · have hlarge : 2147483647 < (Numeral.value ds : Int) := by omega
    simp only [if_pos hlarge, if_neg hle]
    split
    · exact hsmall 0 (by decide) (by decide)
    · exact hsmall 0 (by decide) (by decide)

/-- The smallest number of all is taken for one that does not fit. -/
theorem toInt_parsed_iff (hx : Begins x sign ds) :
    (parsed sign x.digits).toInt = Numeral.toInt32 x.value ↔ x.value ≠ -2147483648 := by
  have hminus := hx.minus
  rw [toInt_parsed x.decimal, Numeral.toInt32, Text.value]
  cases hsign : x.sign with
  | minus =>
    simp only [if_pos (hminus.mpr hsign), Numeral.Sign.apply]
    split_ifs <;> omega
  | plus =>
    have hne : sign ≠ 45 := fun h => by
      rw [hminus.mp h] at hsign
      cases hsign
    simp only [if_neg hne, Numeral.Sign.apply]
    split_ifs <;> omega
  | none =>
    have hne : sign ≠ 45 := fun h => by
      rw [hminus.mp h] at hsign
      cases hsign
    simp only [if_neg hne, Numeral.Sign.apply]
    split_ifs <;> omega

end Terminal

/-- `ReadInt` has come back with the number that was typed and has taken it and the character
behind it from the input, and no store has left `num_string`. -/
structure ReadsNumber (ch : Byte) (fuel : ℕ) (x : Text) (rest : List Byte) (r : Registers)
    (s : Terminal) : Prop where
  returns : ∃ r', (Terminal.services ch).exceptionHandler fuel .SyscallException (r, s) =
    some ((), r', { s with input := rest }) ∧ (r' 2).toInt = Numeral.toInt32 x.value
  inside : (Terminal.services ch).exceptionReadIntChecked fuel (r, s) =
    (Terminal.services ch).exceptionReadInt fuel (r, s)

theorem readInt_iff {x : Text} {t ch : Byte} {rest : List Byte} {fuel : ℕ} {r : Registers}
    {s : Terminal} (hcode : r 2 = 11) (ht : Numeral.isDigit t = false) (hfuel : x.blanks < fuel)
    (hs : s.input = x.bytes ++ t :: rest) : ReadsNumber ch fuel x rest r s ↔
      x.digits.length ≤ 11 ∧ x.value ≠ -2147483648 ∧ t ≠ EOF := by
  have hhandler : (Terminal.services ch).handlerOf fuel (r 2).toNat =
      some ((Terminal.services ch).exceptionReadInt fuel) := by
    rw [hcode]
    rfl
  obtain ⟨sign, ds, hx⟩ := Terminal.exists_begins x
  have hdrop : x.digits.length ≤ 11 →
      (x.digits ++ t :: rest).drop (min 11 x.digits.length + 1) = rest := by
    intro hle
    rw [Nat.min_eq_right hle, List.drop_length_add_append]
    rfl
  constructor
  · rintro ⟨⟨r', hrun, hresult⟩, -⟩
    obtain ⟨r₁, hread, rfl⟩ := Services.handler_of_exceptionHandler hhandler hrun
    have hle : x.digits.length ≤ 11 := by
      by_contra hlong
      have hexact := Terminal.exceptionReadInt_run ch (r := r) hx ht hfuel
        (.inl (by omega)) hs
      rw [hexact, Option.some.injEq] at hread
      have hinput := congrArg (fun a => a.2.2.input.length) hread
      simp only [List.length_drop, List.length_append, List.length_cons] at hinput
      omega
    have heof : t ≠ EOF := by
      rintro rfl
      exact Nat.lt_irrefl _ (Terminal.exceptionReadInt_eof hfuel hle hs hread)
    have hexact := Terminal.exceptionReadInt_run ch (r := r) hx ht hfuel (.inr heof) hs
    rw [hexact, List.take_of_length_le hle, hdrop hle] at hread
    cases hread
    refine ⟨hle, ?_, heof⟩
    rw [Registers.increaseProgramCounter_result] at hresult
    exact (Terminal.toInt_parsed_iff hx).mp (by simpa [Registers.writeRegister] using hresult)
  · rintro ⟨hle, hvalue, heof⟩
    have hexact := Terminal.exceptionReadInt_run ch (r := r) hx ht hfuel (.inr heof) hs
    rw [List.take_of_length_le hle, hdrop hle] at hexact
    refine ⟨⟨_, Services.exceptionHandler_of_some hhandler hexact, ?_⟩, ?_⟩
    · rw [Registers.increaseProgramCounter_result]
      simpa [Registers.writeRegister] using (Terminal.toInt_parsed_iff hx).mpr hvalue
    · rw [Services.exceptionReadIntChecked_eq]

/-- Two blanks and a negative number. -/
def seventeen : Text := ⟨2, .minus, [49, 55], by decide, by decide⟩

theorem readInt_seventeen :
    ReadsNumber 0 3 seventeen [65] (callRegisters 11 0 0 0)
      (.sample (fun _ => 0) [32, 32, 45, 49, 55, 10, 65]) :=
  (readInt_iff (t := 10) rfl rfl (by decide) rfl).mpr ⟨by decide, by decide, by decide⟩

/-- The smallest `int`. -/
def smallest : Text := ⟨0, .minus, [50, 49, 52, 55, 52, 56, 51, 54, 52, 56], by decide, by decide⟩

/-- It is read as zero. -/
theorem readInt_smallest :
    ¬ReadsNumber 0 1 smallest [] (callRegisters 11 0 0 0)
      (.sample (fun _ => 0) (smallest.bytes ++ [10])) := by
  rintro ⟨⟨r', hrun, hresult⟩, -⟩
  have hzero : ((Terminal.services 0).exceptionHandler 1 .SyscallException
      (callRegisters 11 0 0 0, .sample (fun _ => 0) (smallest.bytes ++ [10]))).map
        (fun a => (a.2.1 2).toInt) = some 0 := by decide +kernel
  rw [hrun, Option.map_some, hresult] at hzero
  exact absurd hzero (by decide)

end Nachos
