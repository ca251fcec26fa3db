import NetCache.Basic
import NetCache.Lib.Decimal
import NetCache.Lib.Loop
import Mathlib.Data.List.Induction

/-!
# The command line of the server

`main` walks over `argv` by an index (`serversockets.cpp:151-171`). `-m` and `-t` take the next
element as the capacity and the port, and every other element is passed over. `Piece` is what one
iteration reads, and `parseArguments_iff` says which options a command line stands for: the last
`-m` and the last `-t` count.
-/

namespace NetCache

open Lib Lib.Decimal

/-- The ways in which `main` can stop before it opens a socket. -/
inductive StartFault where
  /-- The null pointer behind the last element of `argv`, used as a string. -/
  | nullArgument
  /-- `std::invalid_argument`, thrown by `std::stoi`. -/
  | invalidArgument
  /-- `std::out_of_range`, thrown by `std::stoi`. -/
  | outOfRange
  /-- A loop that has not ended within the bound its model runs it with. -/
  | outOfFuel
  deriving DecidableEq, Repr

/-- `isspace`, in the C locale. -/
def isSpace (b : UInt8) : Bool := b == 32 || (9 ≤ b && b ≤ 13)

/-- A sign, which `strtol` accepts in front of the digits. -/
def sign : Str → Bool × Str
  | 45 :: s => (true, s)
  | 43 :: s => (false, s)
  | s => (false, s)

/-- `strtol` with base 10: the number at the start of a string, after white space. -/
def strtol (s : Str) : Option Int :=
  let (negative, rest) := sign (s.dropWhile isSpace)
  let digits := rest.takeWhile isDigit
  if digits = [] then none
  else some (if negative then -(value digits : Int) else value digits)

/-- The values of the type `int`. -/
def IsInt (n : Int) : Prop := -2 ^ 31 ≤ n ∧ n < 2 ^ 31

instance : DecidablePred IsInt := fun n => inferInstanceAs (Decidable (-2 ^ 31 ≤ n ∧ n < 2 ^ 31))

/-- `std::stoi`. -/
def stoi (s : Str) : Except StartFault Int32 :=
  match strtol s with
  | none => .error .invalidArgument
  | some n => if IsInt n then .ok (.ofInt n) else .error .outOfRange

/-- The number that a string starts with: white space, a sign and digits, as many as there are. -/
def Denotes (s : Str) (n : Int) : Prop :=
  ∃ spaces sgn digits rest, s = spaces ++ (sgn ++ (digits ++ rest)) ∧
    (∀ b ∈ spaces, isSpace b = true) ∧ digits ≠ [] ∧ (∀ b ∈ digits, isDigit b = true) ∧
    (∀ b ∈ rest.head?, isDigit b = false) ∧
    ((sgn = [] ∨ sgn = [43]) ∧ n = value digits ∨ sgn = [45] ∧ n = -(value digits : Int))

theorem sign_cases (s : Str) :
    ∃ sgn, s = sgn ++ (sign s).2 ∧
      ((sign s).1 = false ∧ (sgn = [] ∨ sgn = [43]) ∨ (sign s).1 = true ∧ sgn = [45]) := by
  unfold sign
  split
  · exact ⟨[45], rfl, .inr ⟨rfl, rfl⟩⟩
  · exact ⟨[43], rfl, .inl ⟨rfl, .inr rfl⟩⟩
  · exact ⟨[], rfl, .inl ⟨rfl, .inl rfl⟩⟩

/-- A digit is neither white space nor a sign. -/
theorem digit_cases {b : UInt8} (h : isDigit b = true) :
    isSpace b = false ∧ b ≠ 45 ∧ b ≠ 43 := by
  rw [isDigit, Bool.and_eq_true, decide_eq_true_iff, decide_eq_true_iff, UInt8.le_iff_toNat_le,
    UInt8.le_iff_toNat_le] at h
  have h48 : (48 : UInt8).toNat = 48 := rfl
  have h13 : (13 : UInt8).toNat = 13 := rfl
  rw [h48] at h
  refine ⟨?_, fun h0 => ?_, fun h0 => ?_⟩
  · rw [isSpace, Bool.or_eq_false_iff, Bool.and_eq_false_iff, beq_eq_false_iff_ne,
      decide_eq_false_iff_not, decide_eq_false_iff_not, UInt8.le_iff_toNat_le,
      UInt8.le_iff_toNat_le, h13]
    refine ⟨fun h0 => ?_, .inr (by omega)⟩
    rw [h0] at h
    exact absurd h.1 (by decide)
  · rw [h0] at h
    exact absurd h.1 (by decide)
  · rw [h0] at h
    exact absurd h.1 (by decide)

theorem sign_digits {b : UInt8} (h : isDigit b = true) (s : Str) :
    sign (b :: s) = (false, b :: s) := by
  obtain ⟨-, hminus, hplus⟩ := digit_cases h
  unfold sign
  split
  · rename_i heq
    exact absurd (List.head_eq_of_cons_eq heq) hminus
  · rename_i heq
    exact absurd (List.head_eq_of_cons_eq heq) hplus
  · rfl

theorem takeWhile_digits {digits rest : Str} (hdigits : ∀ b ∈ digits, isDigit b = true)
    (hrest : ∀ b ∈ rest.head?, isDigit b = false) :
    (digits ++ rest).takeWhile isDigit = digits := by
  rw [List.takeWhile_append_of_pos hdigits]
  cases rest with
  | nil => simp
  | cons b rest => simp [hrest b rfl]

theorem strtol_eq {s rest : Str} {negative : Bool}
    (h : sign (s.dropWhile isSpace) = (negative, rest)) :
    strtol s = if rest.takeWhile isDigit = [] then none
      else some (if negative then -(value (rest.takeWhile isDigit) : Int)
        else value (rest.takeWhile isDigit)) := by
  rw [strtol, h]

theorem strtol_eq_some {s : Str} {n : Int} : strtol s = some n ↔ Denotes s n := by
  constructor
  · intro h
    obtain ⟨sgn, hs, hsgn⟩ := sign_cases (s.dropWhile isSpace)
    rcases hsign : sign (s.dropWhile isSpace) with ⟨negative, rest⟩
    rw [hsign] at hs hsgn
    rw [strtol_eq hsign] at h
    by_cases hne : rest.takeWhile isDigit = []
    · rw [if_pos hne] at h
      cases h
    · rw [if_neg hne] at h
      refine ⟨s.takeWhile isSpace, sgn, rest.takeWhile isDigit, rest.dropWhile isDigit, ?_,
        fun b hb => List.mem_takeWhile_imp hb, hne, fun b hb => List.mem_takeWhile_imp hb,
        fun b hb => ?_, ?_⟩
      · rw [List.takeWhile_append_dropWhile, ← hs, List.takeWhile_append_dropWhile]
      · have hhead := List.head?_dropWhile_not isDigit rest
        rw [Option.mem_def.mp hb] at hhead
        exact hhead
      · rcases hsgn with ⟨hneg, hsgn⟩ | ⟨hneg, hsgn⟩
        · obtain rfl : negative = false := hneg
          exact .inl ⟨hsgn, (Option.some.inj h).symm⟩
        · obtain rfl : negative = true := hneg
          exact .inr ⟨hsgn, (Option.some.inj h).symm⟩
  · rintro ⟨spaces, sgn, digits, rest, rfl, hspaces, hne, hdigits, hrest, hcase⟩
    have htake := takeWhile_digits hdigits hrest
    have hsign : ∃ negative, sign ((spaces ++ (sgn ++ (digits ++ rest))).dropWhile isSpace) =
        (negative, digits ++ rest) ∧ n = if negative then -(value digits : Int)
          else value digits := by
      rw [List.dropWhile_append_of_pos hspaces]
      rcases hcase with ⟨rfl | rfl, rfl⟩ | ⟨rfl, rfl⟩
      · obtain ⟨d, ds, rfl⟩ := List.exists_cons_of_ne_nil hne
        have hd := hdigits d List.mem_cons_self
        refine ⟨false, ?_, rfl⟩
        rw [List.nil_append, List.cons_append,
          List.dropWhile_cons_of_neg (by simp [digit_cases hd]), sign_digits hd]
      · exact ⟨false, rfl, rfl⟩
      · exact ⟨true, rfl, rfl⟩
    obtain ⟨negative, hsign, rfl⟩ := hsign
    rw [strtol_eq hsign, htake, if_neg hne]

theorem stoi_eq_ok {s : Str} {n : Int32} : stoi s = .ok n ↔ Denotes s n.toInt := by
  rw [← strtol_eq_some, stoi]
  cases h : strtol s with
  | none => simp
  | some k =>
    by_cases hk : IsInt k
    · simp only [if_pos hk, Except.ok.injEq, Option.some.injEq]
      constructor
      · rintro rfl
        exact (Int32.toInt_ofInt_of_le hk.1 hk.2).symm
      · rintro rfl
        exact Int32.ofInt_toInt n
    · simp only [if_neg hk, reduceCtorEq, Option.some.injEq, false_iff]
      rintro rfl
      exact hk ⟨n.le_toInt, n.toInt_lt⟩

/-- `std::stoi` throws on a string that denotes no number, or none of type `int`. -/
theorem stoi_eq_error {s : Str} {fault : StartFault} : stoi s = .error fault ↔
    fault = .invalidArgument ∧ (∀ n, ¬ Denotes s n) ∨
      fault = .outOfRange ∧ ∃ n, Denotes s n ∧ ¬ IsInt n := by
  simp only [← strtol_eq_some, stoi]
  cases h : strtol s with
  | none => simp [eq_comm]
  | some k =>
    by_cases hk : IsInt k
    · simp [hk]
    · simp [hk, eq_comm]

/-- The variables of `main` that the command line sets (`serversockets.cpp:152-154`). -/
structure Options where
  maxmem : Int32
  portnum : Int32
  deriving DecidableEq

/-- `DEFAULT_MAXMEM` and `DEFAULT_PORTNUM`. -/
def defaults : Options := ⟨1024, 6114⟩

/-- The two options. -/
inductive Flag where
  | maxmem
  | portnum
  deriving DecidableEq

namespace Flag

/-- What `cmd_arg` is compared with. -/
def text : Flag → Str
  | maxmem => str "-m"
  | portnum => str "-t"

/-- The variable that the option sets. -/
def get (o : Options) : Flag → Int32
  | maxmem => o.maxmem
  | portnum => o.portnum

/-- The assignment to that variable. -/
def set (o : Options) (n : Int32) : Flag → Options
  | maxmem => { o with maxmem := n }
  | portnum => { o with portnum := n }

theorem get_set (o : Options) (n : Int32) (f g : Flag) :
    g.get (f.set o n) = if f = g then n else g.get o := by
  cases f <;> cases g <;> rfl

theorem ext {o o' : Options} (h : ∀ f : Flag, f.get o = f.get o') : o = o' := by
  obtain ⟨m, p⟩ := o
  obtain rfl : m = o'.maxmem := h maxmem
  obtain rfl : p = o'.portnum := h portnum
  rfl

end Flag

/-- The variables of the loop over `argv`. -/
structure Scan where
  ind : Nat
  options : Options

/-- `argv[i]`, where a null pointer stands behind the last element. -/
def argument (argv : List Str) (i : Nat) : Except StartFault Str :=
  match argv[i]? with
  | some arg => .ok arg
  | none => .error .nullArgument

/-- The test for an option (`serversockets.cpp:161-164`, `serversockets.cpp:166-169`). -/
def Scan.takeOption (argv : List Str) (cmdArg : Str) (flag : Flag) (s : Scan) :
    Except StartFault Scan :=
  if cmdArg = flag.text then do
    let arg ← argument argv (s.ind + 1)
    let n ← stoi arg
    .ok ⟨s.ind + 1, flag.set s.options n⟩
  else .ok s

/-- One iteration. Both tests are about the element it has begun with. -/
def Scan.next (argv : List Str) (s : Scan) : Except StartFault Scan := do
  let cmdArg ← argument argv s.ind
  let s ← s.takeOption argv cmdArg .maxmem
  let s ← s.takeOption argv cmdArg .portnum
  .ok { s with ind := s.ind + 1 }

/-- The test of the loop. -/
def Scan.more (argv : List Str) (s : Scan) : Except StartFault Bool :=
  .ok (s.ind < argv.length)

/-- The loop over `argv` (`serversockets.cpp:151-171`). -/
def parseArguments (argv : List Str) : Except StartFault Options :=
  (Loop.run .outOfFuel (Scan.more argv) (Scan.next argv) argv.length ⟨1, defaults⟩).map Scan.options

/-- What one iteration reads: an option with a number, or an element that is passed over. -/
inductive Piece where
  | option (flag : Flag) (arg : Str) (n : Int32) (hn : Denotes arg n.toInt)
  | other (arg : Str) (harg : ∀ flag : Flag, arg ≠ flag.text)

namespace Piece

/-- The elements of `argv` that it takes. -/
def args : Piece → List Str
  | option flag arg _ _ => [flag.text, arg]
  | other arg _ => [arg]

/-- What it does to the options. -/
def apply (o : Options) : Piece → Options
  | option flag _ n _ => flag.set o n
  | other _ _ => o

/-- What it gives an option. -/
def value (flag : Flag) : Piece → Option Int32
  | option flag' _ n _ => if flag' = flag then some n else none
  | other _ _ => none

theorem get_apply (o : Options) (piece : Piece) (flag : Flag) :
    flag.get (piece.apply o) = (piece.value flag).getD (flag.get o) := by
  cases piece with
  | option flag' arg n hn =>
    rw [apply, value, Flag.get_set]
    split <;> rfl
  | other arg harg => rfl

/-- The last piece that is about an option decides on it. -/
theorem get_foldl (o : Options) (pieces : List Piece) (flag : Flag) :
    flag.get (pieces.foldl apply o) =
      (pieces.filterMap (value flag)).getLast?.getD (flag.get o) := by
  induction pieces using List.reverseRecOn with
  | nil => rfl
  | append_singleton pieces piece ih =>
    rw [List.foldl_append, List.foldl_cons, List.foldl_nil, get_apply, ih, List.filterMap_append]
    cases h : piece.value flag with
    | none => simp [h]
    | some n => simp [h]

end Piece

/-- What the loop cannot go on from: an option at the end, or one with an argument that denotes no
number, or none of type `int`. -/
def Stuck (rest : List Str) (fault : StartFault) : Prop :=
  ∃ flag : Flag, rest = [flag.text] ∧ fault = .nullArgument ∨
    ∃ arg more, rest = flag.text :: arg :: more ∧
      (fault = .invalidArgument ∧ (∀ n, ¬ Denotes arg n) ∨
        fault = .outOfRange ∧ ∃ n, Denotes arg n ∧ ¬ IsInt n)

/-- Every list of arguments is made of pieces, up to its end or to where the loop is stuck. -/
theorem exists_pieces (l : List Str) : ∃ (pieces : List Piece) (rest : List Str),
    l = pieces.flatMap Piece.args ++ rest ∧ (rest = [] ∨ ∃ fault, Stuck rest fault) := by
  match l with
  | [] => exact ⟨[], [], rfl, .inl rfl⟩
  | cmdArg :: l =>
    by_cases hflag : ∃ flag : Flag, cmdArg = flag.text
    · obtain ⟨flag, rfl⟩ := hflag
      match l with
      | [] => exact ⟨[], _, rfl, .inr ⟨_, flag, .inl ⟨rfl, rfl⟩⟩⟩
      | arg :: l =>
        cases hn : stoi arg with
        | error fault =>
          exact ⟨[], _, rfl, .inr ⟨fault, flag, .inr ⟨arg, l, rfl, stoi_eq_error.mp hn⟩⟩⟩
        | ok n =>
          obtain ⟨pieces, rest, rfl, hrest⟩ := exists_pieces l
          exact ⟨.option flag arg n (stoi_eq_ok.mp hn) :: pieces, rest, rfl, hrest⟩
    · obtain ⟨pieces, rest, rfl, hrest⟩ := exists_pieces l
      exact ⟨.other cmdArg (not_exists.mp hflag) :: pieces, rest, rfl, hrest⟩

theorem argument_of_drop {argv l : List Str} {i : Nat} (h : argv.drop i = l) (j : Nat) :
    argument argv (i + j) = match l[j]? with
      | some arg => .ok arg
      | none => .error .nullArgument := by
  rw [argument, ← List.getElem?_drop, h]

namespace Scan

variable {argv rest : List Str} {s : Scan}

theorem takeOption_ne {cmdArg : Str} {flag : Flag} (h : cmdArg ≠ flag.text) :
    s.takeOption argv cmdArg flag = .ok s := if_neg h

theorem takeOption_text {flag : Flag} :
    s.takeOption argv flag.text flag = (do
      let arg ← argument argv (s.ind + 1)
      let n ← stoi arg
      .ok ⟨s.ind + 1, flag.set s.options n⟩) := if_pos rfl

/-- An iteration that begins with an option. -/
theorem next_text {flag : Flag} (h : argv.drop s.ind = flag.text :: rest) :
    s.next argv = (do
      let arg ← argument argv (s.ind + 1)
      let n ← stoi arg
      .ok ⟨s.ind + 2, flag.set s.options n⟩) := by
  have harg := argument_of_drop h 0
  rw [Nat.add_zero] at harg
  rw [next, harg]
  cases flag with
  | maxmem =>
    have hne (s' : Scan) : s'.takeOption argv (Flag.text .maxmem) .portnum = .ok s' :=
      takeOption_ne (by decide)
    simp only [List.getElem?_cons_zero, ok_bind, takeOption_text, bind_assoc, hne]
  | portnum =>
    have hne : s.takeOption argv (Flag.text .portnum) .maxmem = .ok s :=
      takeOption_ne (by decide)
    simp only [List.getElem?_cons_zero, ok_bind, takeOption_text, bind_assoc, hne]

/-- One iteration reads one piece. -/
theorem next_piece {piece : Piece} (h : argv.drop s.ind = piece.args ++ rest) :
    s.next argv = .ok ⟨s.ind + piece.args.length, piece.apply s.options⟩ := by
  cases piece with
  | option flag arg n hn =>
    rw [next_text h, argument_of_drop h 1]
    simp only [Piece.args, List.cons_append, List.getElem?_cons_succ, List.getElem?_cons_zero,
      ok_bind, stoi_eq_ok.mpr hn, Piece.apply, List.length_cons, List.length_nil]
  | other arg harg =>
    have h0 := argument_of_drop h 0
    rw [Nat.add_zero] at h0
    rw [next, h0]
    simp only [Piece.args, List.singleton_append, List.getElem?_cons_zero, ok_bind,
      takeOption_ne (harg _), Piece.apply, List.length_singleton]

theorem more_of_drop_ne_nil (h : argv.drop s.ind ≠ []) : s.more argv = .ok true :=
  congrArg Except.ok (decide_eq_true (List.length_lt_of_drop_ne_nil h))

/-- The loop reads the pieces one after the other. -/
theorem run_pieces {pieces : List Piece} (h : argv.drop s.ind = pieces.flatMap Piece.args ++ rest)
    (fuel : Nat) :
    Loop.run .outOfFuel (more argv) (next argv) (pieces.length + fuel) s =
      Loop.run .outOfFuel (more argv) (next argv) fuel
        ⟨s.ind + (pieces.flatMap Piece.args).length, pieces.foldl Piece.apply s.options⟩ := by
  induction pieces generalizing s with
  | nil => rw [List.length_nil, Nat.zero_add]; rfl
  | cons piece pieces ih =>
    rw [List.flatMap_cons, List.append_assoc] at h
    have hmore : s.more argv = .ok true := by
      apply more_of_drop_ne_nil
      rw [h]
      cases piece <;> exact List.cons_ne_nil _ _
    rw [List.length_cons, Nat.add_right_comm, Loop.run_step ⟨hmore, next_piece h⟩, ih,
      List.flatMap_cons,
      List.length_append, List.foldl_cons, Nat.add_assoc]
    rw [← List.drop_drop, h, List.drop_left]

/-- An iteration that is stuck. -/
theorem next_stuck {fault : StartFault} (h : Stuck (argv.drop s.ind) fault) :
    s.next argv = .error fault := by
  obtain ⟨flag, ⟨hrest, rfl⟩ | ⟨arg, more, hrest, harg⟩⟩ := h
  · rw [next_text hrest, argument_of_drop hrest 1]
    rfl
  · rw [next_text hrest, argument_of_drop hrest 1]
    simp only [List.getElem?_cons_succ, List.getElem?_cons_zero, ok_bind, stoi_eq_error.mpr harg,
      error_bind]

end Scan

theorem length_le_flatMap (pieces : List Piece) :
    pieces.length ≤ (pieces.flatMap Piece.args).length := by
  induction pieces with
  | nil => exact le_rfl
  | cons piece pieces ih =>
    rw [List.flatMap_cons, List.length_append, List.length_cons, Nat.add_comm]
    refine Nat.add_le_add ?_ ih
    cases piece <;> exact Nat.succ_pos _

/-- What the loop makes of the pieces and of what is behind them. -/
theorem parseArguments_append {argv rest : List Str} {pieces : List Piece}
    (h : argv.tail = pieces.flatMap Piece.args ++ rest) :
    (rest = [] → parseArguments argv = .ok (pieces.foldl Piece.apply defaults)) ∧
      ∀ fault, Stuck rest fault → parseArguments argv = .error fault := by
  have hdrop : argv.drop 1 = pieces.flatMap Piece.args ++ rest := by rw [List.drop_one, h]
  have hlen : argv.length - 1 = (pieces.flatMap Piece.args).length + rest.length := by
    rw [← List.length_tail, h, List.length_append]
  have hle := length_le_flatMap pieces
  obtain ⟨fuel, hfuel⟩ : ∃ fuel, argv.length = pieces.length + fuel :=
    Nat.exists_eq_add_of_le (by omega)
  have hrun := Scan.run_pieces (s := ⟨1, defaults⟩) hdrop fuel
  rw [← hfuel] at hrun
  have hrest : argv.drop (1 + (pieces.flatMap Piece.args).length) = rest := by
    rw [← List.drop_drop, hdrop, List.drop_left]
  constructor
  · rintro rfl
    have hdone : Scan.more argv ⟨1 + (pieces.flatMap Piece.args).length,
        pieces.foldl Piece.apply defaults⟩ = .ok false := by
      rw [List.length_nil] at hlen
      exact congrArg Except.ok (decide_eq_false (by simp only; omega))
    rw [parseArguments, hrun, Loop.run_done hdone, ok_map]
  · intro fault hstuck
    have hlt : 0 < rest.length := by
      obtain ⟨flag, ⟨rfl, -⟩ | ⟨arg, more, rfl, -⟩⟩ := hstuck
      · exact Nat.succ_pos _
      · exact Nat.succ_pos _
    have hmore : Scan.more argv ⟨1 + (pieces.flatMap Piece.args).length,
        pieces.foldl Piece.apply defaults⟩ = .ok true := by
      apply Scan.more_of_drop_ne_nil
      rw [hrest]
      exact List.ne_nil_of_length_pos hlt
    rw [← hrest] at hstuck
    obtain ⟨fuel, rfl⟩ : ∃ n, fuel = n + 1 := Nat.exists_eq_succ_of_ne_zero (by omega)
    rw [parseArguments, hrun, Loop.run, hmore, Scan.next_stuck hstuck, error_map]

theorem parseArguments_pieces {argv : List Str} {pieces : List Piece}
    (h : argv.tail = pieces.flatMap Piece.args) :
    parseArguments argv = .ok (pieces.foldl Piece.apply defaults) :=
  (parseArguments_append (h.trans (List.append_nil _).symm)).1 rfl

/-- `main` accepts a command line if and only if it is made of pieces, and then the last `-m` is
the capacity and the last `-t` the port, where the defaults stand for an option that is not
given. -/
theorem parseArguments_iff (argv : List Str) (o : Options) : parseArguments argv = .ok o ↔
    ∃ pieces : List Piece, argv.tail = pieces.flatMap Piece.args ∧ ∀ flag : Flag,
      flag.get o = (pieces.filterMap (Piece.value flag)).getLast?.getD (flag.get defaults) := by
  constructor
  · intro h
    obtain ⟨pieces, rest, hargv, rfl | ⟨fault, hstuck⟩⟩ := exists_pieces argv.tail
    · rw [(parseArguments_append hargv).1 rfl] at h
      cases h
      rw [List.append_nil] at hargv
      exact ⟨pieces, hargv, fun flag => Piece.get_foldl defaults pieces flag⟩
    · rw [(parseArguments_append hargv).2 fault hstuck] at h
      cases h
  · rintro ⟨pieces, hargv, hget⟩
    rw [parseArguments_pieces hargv]
    congr 1
    apply Flag.ext
    intro flag
    rw [Piece.get_foldl, hget flag]

/-- `main` stops at an option if and only if it is the first one that is without an argument or
has one that is no number of type `int`. -/
theorem parseArguments_error_iff (argv : List Str) (fault : StartFault) :
    parseArguments argv = .error fault ↔ ∃ (pieces : List Piece) (rest : List Str),
      argv.tail = pieces.flatMap Piece.args ++ rest ∧ Stuck rest fault := by
  constructor
  · intro h
    obtain ⟨pieces, rest, hargv, hrest | ⟨fault', hstuck⟩⟩ := exists_pieces argv.tail
    · rw [(parseArguments_append hargv).1 hrest] at h
      cases h
    · rw [(parseArguments_append hargv).2 fault' hstuck] at h
      cases h
      exact ⟨pieces, rest, hargv, hstuck⟩
  · rintro ⟨pieces, rest, hargv, hstuck⟩
    exact (parseArguments_append hargv).2 fault hstuck

/-! ## Command lines that are written out -/

/-- A number of type `int` in digits. -/
def numeral (n : Int32) : Str :=
  if n.toInt < 0 then 45 :: decimal n.toInt.natAbs else decimal n.toInt.natAbs

theorem denotes_numeral (n : Int32) : Denotes (numeral n) n.toInt := by
  have hdigits : ∀ b ∈ decimal n.toInt.natAbs, isDigit b = true := fun b =>
    isDigit_of_mem_decimal
  have hvalue := value_decimal n.toInt.natAbs
  by_cases hneg : n.toInt < 0
  · refine ⟨[], [45], decimal n.toInt.natAbs, [], ?_, List.forall_mem_nil _,
      decimal_ne_nil _, hdigits, by simp, .inr ⟨rfl, by omega⟩⟩
    rw [numeral, if_pos hneg, List.append_nil]
    rfl
  · refine ⟨[], [], decimal n.toInt.natAbs, [], ?_, List.forall_mem_nil _,
      decimal_ne_nil _, hdigits, by simp, .inl ⟨.inl rfl, by omega⟩⟩
    rw [numeral, if_neg hneg, List.append_nil]
    rfl

/-- Whatever numbers of type `int` are given for the options, in any order and any number of
times, `main` reads them back, and the last one for an option counts. -/
theorem parseArguments_settings (program : Str) (settings : List (Flag × Int32)) :
    ∃ o, parseArguments (program :: settings.flatMap fun x => [x.1.text, numeral x.2]) = .ok o ∧
      ∀ flag : Flag, flag.get o =
        (settings.filterMap fun x => if x.1 = flag then some x.2 else none).getLast?.getD
          (flag.get defaults) := by
  let piece (x : Flag × Int32) : Piece := .option x.1 (numeral x.2) x.2 (denotes_numeral x.2)
  have hargs : (settings.flatMap fun x => [x.1.text, numeral x.2]) =
      (settings.map piece).flatMap Piece.args := by
    rw [List.flatMap_map]
    rfl
  refine ⟨(settings.map piece).foldl Piece.apply defaults, parseArguments_pieces hargs,
    fun flag => ?_⟩
  rw [Piece.get_foldl, List.filterMap_map]
  rfl

/-- The second port counts, and the capacity stays the default. -/
example : parseArguments [str "server", str "-t", str "80", str "x", str "-t", str " -1b"] =
    .ok ⟨1024, -1⟩ := by decide

namespace Options

/-- The capacity that the cache is constructed with (`serversockets.cpp:173`). -/
def capacity (o : Options) : UInt32 := o.maxmem.toUInt32

/-- The port that the socket is bound to (`serversockets.cpp:194`). -/
def port (o : Options) : UInt16 := o.portnum.toUInt32.toUInt16

/-- A negative number becomes a capacity of `2 ^ 31` bytes or more. -/
theorem capacity_lt_iff (o : Options) : o.capacity.toNat < 2 ^ 31 ↔ 0 ≤ o.maxmem.toInt := by
  have h : o.maxmem.toInt = if 2 * o.capacity.toNat < 2 ^ 32 then (o.capacity.toNat : Int)
      else (o.capacity.toNat : Int) - (2 ^ 32 : Nat) := BitVec.toInt_eq_toNat_cond _
  have hlt := o.capacity.toNat_lt
  split at h <;> omega

theorem capacity_toNat {o : Options} (h : 0 ≤ o.maxmem.toInt) :
    o.capacity.toNat = o.maxmem.toInt.toNat := by
  have hcond : o.maxmem.toInt = if 2 * o.capacity.toNat < 2 ^ 32 then (o.capacity.toNat : Int)
      else (o.capacity.toNat : Int) - (2 ^ 32 : Nat) := BitVec.toInt_eq_toNat_cond _
  have hlt := (capacity_lt_iff o).mpr h
  split at hcond <;> omega

end Options

end NetCache
