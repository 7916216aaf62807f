import Pseudocode.Directive
import Pseudocode.Instruction.Listing
import Pseudocode.Syntax.Error

/-! # Validation

An instruction tree makes sense if every instruction carries what its kind needs and nothing else;
a directive does if its value fits its kind and its index is a path. The first offence in document
order is reported, instructions before directives.
-/

namespace Pseudocode

inductive Offence where
  | unexpectedBlock (kind : InstructionKind)
  | missingBlock (kind : InstructionKind)
  | unexpectedElseBlock (kind : InstructionKind)
  | missingExpression (kind : InstructionKind)
  | argumentMismatch (argument expression : String)
  | unexpectedExpression (kind : InstructionKind)
  | invalidTarget (name : String)
  | invalidIndex (index : String)
  | valueMismatch (kind value : String)
  | tooDeep
  deriving DecidableEq, Repr

def Offence.message : Offence → String
  | .unexpectedBlock k => k.keyword ++ " must not carry a block"
  | .missingBlock k => k.keyword ++ " requires a block"
  | .unexpectedElseBlock _ => "only SI may carry a SINO block"
  | .missingExpression k => k.keyword ++ " requires an expression"
  | .argumentMismatch argument expression =>
    "argument '" ++ argument ++ "' does not match its expression '" ++ expression ++ "'"
  | .unexpectedExpression k => k.keyword ++ " must not carry an assignment expression"
  | .invalidTarget name => "'" ++ name ++ "' is not a valid variable name"
  | .invalidIndex index => "index '" ++ index ++ "' is not a dotted path of positive integers"
  | .valueMismatch kind value => "value '" ++ value ++ "' does not fit configuration kind " ++ kind
  | .tooDeep => "blocks nest deeper than " ++ toString maxNesting ++ " levels"

inductive Location where
  | instruction (path : Path)
  /-- A directive by its number, counted from one. -/
  | directive (number : Nat)
  deriving DecidableEq, Repr

def Location.render : Location → String
  | .instruction path => path.render
  | .directive n => "#CONFIG " ++ toString n

structure ValidationError where
  location : Location
  line : Nat
  offence : Offence
  deriving DecidableEq, Repr

def ValidationError.message (e : ValidationError) : String :=
  "Invalid program at " ++ e.location.render ++ " (line " ++ toString e.line ++ "): " ++
    e.offence.message

namespace Instruction

def blockOffence? (i : Instruction) : Option Offence :=
  if i.kind.hasBlock && i.body.isNone then some (.missingBlock i.kind)
  else if !i.kind.hasBlock && i.body.isSome then some (.unexpectedBlock i.kind)
  else if i.otherwise.isSome && i.kind ≠ .branch then some (.unexpectedElseBlock i.kind)
  else none

def argumentOffence? (i : Instruction) : Option Offence :=
  match i.kind with
  | .assign | .input =>
    if Text.isWord i.argument.toList then none else some (.invalidTarget i.argument)
  | .branch | .loop | .display =>
    match i.argumentExpr with
    | none => some (.missingExpression i.kind)
    | some e => if i.argument = e.render then none else some (.argumentMismatch i.argument e.render)

def valueOffence? (i : Instruction) : Option Offence :=
  match i.kind, i.value with
  | .assign, none => some (.missingExpression i.kind)
  | .assign, some _ | _, none => none
  | _, some _ => some (.unexpectedExpression i.kind)

/-- What is wrong with an instruction that `depth` blocks are open around. -/
def offence? (depth : Nat) (i : Instruction) : Option Offence :=
  i.blockOffence? <|> i.argumentOffence? <|> i.valueOffence? <|>
    if i.body.isSome && maxNesting ≤ depth then some .tooDeep else none

end Instruction

namespace Directive

/-- The path that the directive is aimed at. -/
def target? (d : Directive) : Option Path :=
  if d.isGlobal then none else Path.parse? d.index

theorem target?_eq (d : Directive) : d.target? = Path.parse? d.index := by
  unfold target?
  split
  case isTrue hglobal =>
    have hindex : d.index = "" := by simpa [isGlobal] using hglobal
    rw [hindex]
    decide
  case isFalse => rfl

def offence? (d : Directive) : Option Offence :=
  if !d.kind.accepts d.value then some (.valueMismatch d.kind.name d.value.render)
  else if d.isGlobal || d.target?.isSome then none
  else some (.invalidIndex d.index)

end Directive

/-- The error of the instruction at a path, those below it aside. -/
def errorAt? (path : Path) (i : Instruction) : Option ValidationError :=
  (i.offence? (path.depth - 1)).map fun o => ⟨.instruction path, i.line, o⟩

mutual

/-- The first error below an instruction at a path. -/
def errorBelow? (path : Path) : Instruction → Option ValidationError
  | ⟨_, _, _, _, body, otherwise, _⟩ =>
    errorInBlock? path 1 body <|> errorInBlock? path ((body.getD []).length + 1) otherwise

def errorInBlock? (path : Path) (next : Nat) : Option (List Instruction) → Option ValidationError
  | none => none
  | some is => errorFrom? path next is

/-- The first error of a sequence inside `path`, numbered from `next` on. -/
def errorFrom? (path : Path) (next : Nat) : List Instruction → Option ValidationError
  | [] => none
  | i :: is =>
    errorAt? (path.child next) i <|> errorBelow? (path.child next) i <|>
      errorFrom? path (next + 1) is

end

mutual

theorem errorBelow?_eq (path : Path) : ∀ i : Instruction,
    errorBelow? path i = (i.listingBelow path).findSome? fun p => errorAt? p.1 p.2
  | ⟨_, _, _, _, body, otherwise, _⟩ => by
    rw [errorBelow?, Instruction.listingBelow, errorInBlock?_eq, errorInBlock?_eq,
      List.findSome?_append, Option.orElse_eq_orElse, Option.orElse_eq_or]

theorem errorInBlock?_eq (path : Path) (next : Nat) : ∀ b : Option (List Instruction),
    errorInBlock? path next b =
      (Instruction.listingBlock path next b).findSome? fun p => errorAt? p.1 p.2
  | none => rfl
  | some is => by rw [errorInBlock?, Instruction.listingBlock, errorFrom?_eq]

theorem errorFrom?_eq (path : Path) (next : Nat) : ∀ is : List Instruction,
    errorFrom? path next is =
      (Instruction.listingFrom path next is).findSome? fun p => errorAt? p.1 p.2
  | [] => rfl
  | i :: is => by
    rw [errorFrom?, Instruction.listingFrom, errorBelow?_eq, errorFrom?_eq]
    cases h : errorAt? (path.child next) i <;> simp [List.findSome?_append, h]

end

def checkInstructions (is : List Instruction) : Option ValidationError :=
  errorFrom? .root 1 is

theorem checkInstructions_eq (is : List Instruction) :
    checkInstructions is = (Instruction.listing is).findSome? fun p => errorAt? p.1 p.2 :=
  errorFrom?_eq .root 1 is

/-- What directives, numbered from `number` on, are aimed at, or the first error of one. -/
def checkDirectivesFrom (number : Nat) : List Directive → Except ValidationError (List (Option Path))
  | [] => .ok []
  | d :: ds =>
    match d.offence? with
    | some o => .error ⟨.directive number, d.line, o⟩
    | none => (checkDirectivesFrom (number + 1) ds).map (d.target? :: ·)

def checkDirectives (ds : List Directive) : Except ValidationError (List (Option Path)) :=
  checkDirectivesFrom 1 ds

theorem checkDirectivesFrom_eq_ok_iff {number : Nat} {ds : List Directive} {targets : List (Option Path)} :
    checkDirectivesFrom number ds = .ok targets ↔
      (∀ d ∈ ds, d.offence? = none) ∧ targets = ds.map Directive.target? := by
  induction ds generalizing number targets with
  | nil => simp [checkDirectivesFrom, eq_comm]
  | cons d ds ih =>
    rw [checkDirectivesFrom, List.forall_mem_cons]
    cases ho : d.offence? with
    | some o => simp
    | none =>
      cases h : checkDirectivesFrom (number + 1) ds with
      | error e =>
        refine iff_of_false nofun fun ⟨⟨_, hds⟩, _⟩ => ?_
        cases h.symm.trans (ih.mpr ⟨hds, rfl⟩)
      | ok rest =>
        obtain ⟨hds, rfl⟩ := ih.mp h
        refine ⟨fun ht => ⟨⟨rfl, hds⟩, (Except.ok.inj ht).symm⟩, fun ⟨_, ht⟩ => ?_⟩
        rw [ht]
        rfl

/-- The error of a list of directives is that of the first one with an offence. -/
theorem exists_of_checkDirectivesFrom {number : Nat} {ds : List Directive} {e : ValidationError}
    (h : checkDirectivesFrom number ds = .error e) :
    ∃ n d o, ds[n]? = some d ∧ d.offence? = some o ∧ e = ⟨.directive (n + number), d.line, o⟩ ∧
      ∀ (m : Nat) (d' : Directive), ds[m]? = some d' → m < n → d'.offence? = none := by
  induction ds generalizing number with
  | nil => cases h
  | cons d ds ih =>
    rw [checkDirectivesFrom] at h
    cases ho : d.offence? with
    | some o =>
      rw [ho] at h
      exact ⟨0, d, o, rfl, ho, by rw [Nat.zero_add, Except.error.inj h],
        fun m _ _ hm => absurd hm (Nat.not_lt_zero m)⟩
    | none =>
      rw [ho] at h
      cases hds : checkDirectivesFrom (number + 1) ds with
      | ok rest =>
        rw [hds] at h
        cases h
      | error e' =>
        rw [hds] at h
        obtain rfl := Except.error.inj h
        obtain ⟨n, d', o, hn, ho', he, hfirst⟩ := ih hds
        refine ⟨n + 1, d', o, hn, ho', by rw [he, Nat.add_right_comm, Nat.add_assoc], fun m b hm hlt => ?_⟩
        cases m with
        | zero =>
          obtain rfl := Option.some.inj hm
          exact ho
        | succ m => exact hfirst m b hm (Nat.lt_of_succ_lt_succ hlt)

end Pseudocode
