import Mathlib.Logic.Function.Basic
import Mathlib.Algebra.Ring.Nat
import Mathlib.Data.List.Basic
import Mathlib.Data.List.Induction
import Mathlib.Data.List.TakeWhile

/-! The command lines of `cpu_bench` and `pim_bench`: `parse_args`, the numbers that
`std::stoul` reads, and what each `main` starts or refuses. -/
namespace ImPir.CommandLine
open Function

abbrev Text := List Char

abbrev Args := Text → Option Text

def assign (args : Args) (token : Text) : Args :=
  if '=' ∈ token then
    let pos := token.idxOf '='
    update args (token.take pos) (some (token.drop (pos + 1)))
  else args

def parseArgs (argv : List Text) : Args := (argv.drop 1).foldl assign (fun _ => none)

/- How a program ends before it runs: with status 1 after a message, by a throw of `std::stoul`
or of a vector, at the undefined shift for the size of the database, or at an assertion. -/
inductive Stop where
  | exit (cerr : String)
  | invalidArgument
  | outOfRange
  | lengthError
  | badAlloc
  | undefined
  | assertion
  deriving DecidableEq, Repr

def isSpace (c : Char) : Bool := c.toNat = 32 || (9 ≤ c.toNat && c.toNat ≤ 13)

def sign : Text → Bool × Text
  | '-' :: rest => (true,rest)
  | '+' :: rest => (false,rest)
  | rest => (false,rest)

/- `std::stoul` reads as far as it finds digits; a number behind `-` is negated modulo
`2^64`. -/
def stoul (text : Text) : Except Stop Nat :=
  let (negative,rest) := sign (text.dropWhile isSpace)
  let digits := rest.takeWhile Char.isDigit
  let n := Nat.ofDigitChars 10 digits 0
  if digits = [] then .error .invalidArgument
  else if 2^64 ≤ n then .error .outOfRange
  else .ok (if negative then (2^64 - n) % 2^64 else n)

def decimal (n : Nat) : Text := Nat.toDigits 10 n

def setting (key value : Text) : Text := key ++ '=' :: value

def Says (tokens : List Text) (key value : Text) : Prop :=
  ∃ before after, tokens = before ++ setting key value :: after ∧ ∀ t ∈ after, ∀ other, t ≠ setting key other

theorem settingIndex {key : Text} (plain : '=' ∉ key) (value : Text) : (setting key value).idxOf '=' = key.length := by
  rw [setting,List.idxOf_append_of_notMem plain,List.idxOf_cons_self,Nat.add_zero]

theorem assignSetting (args : Args) {key : Text} (plain : '=' ∉ key) (value : Text) :
    assign args (setting key value) = update args key (some value) := by
  have member : '=' ∈ setting key value := by simp [setting]
  rw [assign,if_pos member]
  simp only [settingIndex plain]
  congr 1
  · simp [setting]
  · simp [setting]

theorem tokenSetting {token : Text} (member : '=' ∈ token) :
    ∃ key value, '=' ∉ key ∧ token = setting key value := by
  obtain ⟨key,value,split,plain⟩ := List.eq_append_cons_of_mem member
  exact ⟨key,value,plain,split⟩

theorem assignOther (args : Args) {key token : Text} (other : ∀ value, token ≠ setting key value) :
    assign args token key = args key := by
  by_cases member : '=' ∈ token
  · obtain ⟨key',value,plain,rfl⟩ := tokenSetting member
    rw [assignSetting args plain]
    apply update_of_ne
    rintro rfl
    exact other value rfl
  · rw [assign,if_neg member]

theorem settingInjective {key value value' : Text} (same : setting key value = setting key value') : value = value' :=
  (List.cons.inj (List.append_cancel_left same)).2

theorem saysNext {tokens : List Text} {t key value : Text} :
    Says (tokens ++ [t]) key value ↔
      t = setting key value ∨ ((∀ other, t ≠ setting key other) ∧ Says tokens key value) := by
  constructor
  · rintro ⟨before,after,split,last⟩
    rcases List.eq_nil_or_concat after with rfl | ⟨front,e,rfl⟩
    · exact .inl (List.cons.inj (List.append_inj' split rfl).2).1
    · rw [List.concat_eq_append,← List.cons_append,← List.append_assoc] at split
      obtain ⟨rfl,same⟩ := List.append_inj' split rfl
      obtain rfl := (List.cons.inj same).1
      refine .inr ⟨last t (by simp),before,front,rfl,fun t' member => last t' ?_⟩
      rw [List.concat_eq_append]
      exact List.mem_append_left _ member
  · rintro (rfl | ⟨other,before,after,rfl,last⟩)
    · exact ⟨tokens,[],rfl,fun t member => by cases member⟩
    · refine ⟨before,after ++ [t],by simp,fun t' member => ?_⟩
      rcases List.mem_append.mp member with old | new
      · exact last t' old
      · rw [List.mem_singleton.mp new]
        exact other

theorem parseNext (program : Text) (tokens : List Text) (t : Text) :
    parseArgs (program :: (tokens ++ [t])) = assign (parseArgs (program :: tokens)) t := by
  simp [parseArgs]

theorem assignPlain {args : Args} {key : Text} (inside : '=' ∈ key) (unset : args key = none) (token : Text) :
    assign args token key = none := by
  by_cases member : '=' ∈ token
  · obtain ⟨key',value,plain,rfl⟩ := tokenSetting member
    rw [assignSetting args plain,update_of_ne,unset]
    rintro rfl
    exact plain inside
  · rw [assign,if_neg member,unset]

theorem argumentSays (program : Text) (tokens : List Text) (key value : Text) :
    parseArgs (program :: tokens) key = some value ↔ '=' ∉ key ∧ Says tokens key value := by
  by_cases inside : '=' ∈ key
  · have unset : parseArgs (program :: tokens) key = none := by
      induction tokens using List.reverseRecOn with
      | nil => rfl
      | append_singleton tokens t ih =>
        rw [parseNext]
        exact assignPlain inside ih t
    simp [unset,inside]
  · rw [and_iff_right inside]
    induction tokens using List.reverseRecOn with
    | nil =>
      constructor
      · intro found
        cases found
      · rintro ⟨before,after,split,_⟩
        simp at split
    | append_singleton tokens t ih =>
      rw [parseNext,saysNext]
      by_cases sets : ∃ other, t = setting key other
      · obtain ⟨other,rfl⟩ := sets
        rw [assignSetting _ inside,update_self,Option.some.injEq]
        constructor
        · rintro rfl
          exact .inl rfl
        · rintro (same | ⟨never,_⟩)
          · exact settingInjective same
          · exact absurd rfl (never other)
      · have never : ∀ other, t ≠ setting key other := fun other same => sets ⟨other,same⟩
        rw [assignOther _ never,ih]
        exact ⟨fun before => .inr ⟨never,before⟩,fun either => either.elim (fun same => absurd same (never value)) And.right⟩

def signText : Option Bool → Text
  | none => []
  | some false => ['+']
  | some true => ['-']

/- The numerals of `std::stoul`: white space, a sign or none, digits, and anything that does
not go on with a digit. -/
structure Numeral (text : Text) (n : Nat) (spaces : Text) (mark : Option Bool) (digits rest : Text) : Prop where
  parts : text = spaces ++ (signText mark ++ (digits ++ rest))
  white : ∀ c ∈ spaces, isSpace c = true
  any : digits ≠ []
  all : ∀ c ∈ digits, c.isDigit = true
  ends : ∀ c, rest.head? = some c → c.isDigit = false
  fits : Nat.ofDigitChars 10 digits 0 < 2^64
  value : n = if mark = some true then (2^64 - Nat.ofDigitChars 10 digits 0) % 2^64 else Nat.ofDigitChars 10 digits 0

theorem digitIsNoSpace {c : Char} (digit : c.isDigit = true) : isSpace c = false := by
  simp only [Char.isDigit,Bool.and_eq_true,decide_eq_true_eq] at digit
  simp only [isSpace,Bool.or_eq_false_iff,Bool.and_eq_false_iff,decide_eq_false_iff_not]
  have low : 48 ≤ c.toNat := digit.1
  omega

theorem spacesDropped {spaces rest : Text} (white : ∀ c ∈ spaces, isSpace c = true)
    (dark : ∀ c, rest.head? = some c → isSpace c = false) : (spaces ++ rest).dropWhile isSpace = rest := by
  rw [List.dropWhile_append_of_pos white]
  cases rest with
  | nil => rfl
  | cons c rest => exact List.dropWhile_cons_of_neg (by simp [dark c rfl])

theorem digitsTaken {digits rest : Text} (all : ∀ c ∈ digits, c.isDigit = true)
    (ends : ∀ c, rest.head? = some c → c.isDigit = false) : (digits ++ rest).takeWhile Char.isDigit = digits := by
  rw [List.takeWhile_append_of_pos all]
  cases rest with
  | nil => simp
  | cons c rest => rw [List.takeWhile_cons_of_neg (by simp [ends c rfl]),List.append_nil]

theorem signRead {rest : Text} (digit : ∀ c, rest.head? = some c → c.isDigit = true) (mark : Option Bool) :
    sign (signText mark ++ rest) = (decide (mark = some true),rest) := by
  cases mark with
  | none =>
    cases rest with
    | nil => rfl
    | cons c rest =>
      have isDigit := digit c rfl
      have minus : c ≠ '-' := by
        rintro rfl
        cases isDigit
      have plus : c ≠ '+' := by
        rintro rfl
        cases isDigit
      show sign (c :: rest) = (false,c :: rest)
      unfold sign
      split
      · rename_i same
        exact absurd (List.cons.inj same).1 minus
      · rename_i same
        exact absurd (List.cons.inj same).1 plus
      · rfl
  | some negative => cases negative <;> rfl

theorem signParts (text : Text) : ∃ mark, text = signText mark ++ (sign text).2 ∧
    (sign text).1 = decide (mark = some true) := by
  unfold sign
  split
  · exact ⟨some true,rfl,rfl⟩
  · exact ⟨some false,rfl,rfl⟩
  · exact ⟨none,rfl,rfl⟩

theorem stoulNumeral (text : Text) (n : Nat) :
    stoul text = .ok n ↔ ∃ spaces mark digits rest, Numeral text n spaces mark digits rest := by
  constructor
  · intro accepted
    obtain ⟨mark,parts,negative⟩ := signParts (text.dropWhile isSpace)
    unfold stoul at accepted
    generalize sign (text.dropWhile isSpace) = signed at accepted parts negative
    obtain ⟨isNegative,behind⟩ := signed
    dsimp only at accepted parts negative
    split at accepted
    · cases accepted
    · rename_i any
      split at accepted
      · cases accepted
      · rename_i fits
        cases accepted
        refine ⟨text.takeWhile isSpace,mark,behind.takeWhile Char.isDigit,behind.dropWhile Char.isDigit,?_⟩
        refine ⟨?_,fun c member => List.mem_takeWhile_imp member,any,fun c member => List.mem_takeWhile_imp member,?_,
          by omega,?_⟩
        · rw [List.takeWhile_append_dropWhile,← parts,List.takeWhile_append_dropWhile]
        · intro c first
          have stops := List.head?_dropWhile_not Char.isDigit behind
          rw [first] at stops
          simpa using stops
        · rw [negative]
          simp
  · rintro ⟨spaces,mark,digits,rest,h⟩
    have firstDigit : ∀ c, (digits ++ rest).head? = some c → c.isDigit = true := by
      intro c first
      cases digits with
      | nil => exact absurd rfl h.any
      | cons d digits =>
        cases first
        exact h.all _ List.mem_cons_self
    have dark : ∀ c, (signText mark ++ (digits ++ rest)).head? = some c → isSpace c = false := by
      intro c first
      cases mark with
      | none => exact digitIsNoSpace (firstDigit c first)
      | some negative => cases negative <;> cases first <;> rfl
    have tail : sign (text.dropWhile isSpace) = (decide (mark = some true),digits ++ rest) := by
      rw [h.parts,spacesDropped h.white dark,signRead firstDigit]
    have fits := h.fits
    unfold stoul
    rw [tail]
    dsimp only
    rw [digitsTaken h.all h.ends,if_neg h.any,if_neg (by omega),h.value]
    simp

theorem stoulWritten {n : Nat} (fits : n < 2^64) {rest : Text} (ends : ∀ c, rest.head? = some c → c.isDigit = false) :
    stoul (decimal n ++ rest) = .ok n := by
  refine (stoulNumeral _ _).mpr ⟨[],none,decimal n,rest,?_⟩
  refine ⟨rfl,fun c member => (by cases member),Nat.toDigits_ne_nil,fun c member => ?_,ends,?_,?_⟩
  · exact Nat.isDigit_of_mem_toDigits (by decide) (by decide) member
  · rwa [decimal,Nat.ofDigitChars_ten_toDigits]
  · rw [decimal,Nat.ofDigitChars_ten_toDigits]
    rfl

/- The arguments are what the last token that sets each says; numbers are read as written. -/
theorem argumentsRead (program : Text) (tokens : List Text) :
    (∀ key value, parseArgs (program :: tokens) key = some value ↔ '=' ∉ key ∧ Says tokens key value) ∧
    (∀ text n, stoul text = .ok n ↔ ∃ spaces mark digits rest, Numeral text n spaces mark digits rest) ∧
    ∀ n < 2^64, ∀ rest : Text, (∀ c, rest.head? = some c → c.isDigit = false) → stoul (decimal n ++ rest) = .ok n :=
  ⟨argumentSays program tokens,stoulNumeral,fun _ fits _ ends => stoulWritten fits ends⟩

end ImPir.CommandLine
