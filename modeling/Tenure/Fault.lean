/-!
# What can go wrong

A `HeapError` is a condition of the heap or of a request. It is either handed back to the caller
or fatal, and a `Fault` keeps the two apart; a third kind of fault is a broken promise of the
caller, a `Violation`. The wording of each is here and nowhere else.
-/

namespace Tenure

/-- The part of a header that an access on an indirection asked for. -/
inductive HeaderField
  | tag
  | size
  | tail
  | newSize
  | newTail
  deriving DecidableEq, Repr

/-- A use of the header encoding that no header allows. -/
inductive HeaderMisuse
  | tagTooLarge
  | unalignedTarget
  | targetOfDirect
  | fieldOfIndirection (field : HeaderField)
  deriving DecidableEq, Repr

/-- The conditions that the heap reports. -/
inductive HeapError
  /-- A direct field was asked of an indirection, or the reverse. -/
  | encodingMisuse (what : HeaderMisuse)
  /-- An allocation named a tag without a type. -/
  | unknownTag (tag : Nat)
  /-- A tail has more units than a header can count. -/
  | capacityOverflow (requested max : Nat)
  /-- A direct header carries a tag outside the type table. -/
  | heapCorruption (tag tableSize : Nat)
  /-- A collection did not leave the bytes that were asked for. -/
  | exhausted (requested available : Nat)
  /-- A single allocation is larger than the nursery. -/
  | objectTooLarge (requested nursery : Nat)
  /-- A root was released while it was not on top. -/
  | rootImbalance (expected found : Nat)
  /-- An immutable object was written after it left the nursery. -/
  | immutableWrite (type : String)
  deriving DecidableEq, Repr

/-- The promises that a caller of the heap can break. -/
inductive Violation
  | primOutOfRange (type : String) (index : Nat)
  | ptrOutOfRange (type : String) (index : Nat)
  | unitOutOfRange (index size : Nat)
  | tailHoldsRefs (type : String)
  | tailHoldsWords (type : String)
  | epochOpen
  | noEpochToEnd
  | allocationInEpoch
  | promotionOutsideEpoch
  | selfRedirect
  | depthOutOfRange (depth size : Nat)
  | addressSpaceFull
  | wordNotInUse
  | allocationStuck
  deriving DecidableEq, Repr

/-- How an operation ends when it does not succeed. -/
inductive Fault
  /-- The error is handed back and the caller may go on. -/
  | refused (error : HeapError)
  /-- The error is beyond repair. -/
  | fatal (error : HeapError)
  /-- The caller broke a promise. -/
  | violation (v : Violation)
  deriving DecidableEq, Repr

/-- The field's name in messages. -/
def HeaderField.message : HeaderField → String
  | .tag => "tag"
  | .size => "size"
  | .tail => "tail"
  | .newSize => "set_size"
  | .newTail => "set_tail"

/-- The misuse in words. -/
def HeaderMisuse.message : HeaderMisuse → String
  | .tagTooLarge => "tag does not fit the header"
  | .unalignedTarget => "indirection target is not word aligned"
  | .targetOfDirect => "get_indirection on a direct header"
  | .fieldOfIndirection field => field.message

/-- The error in words. -/
def HeapError.message : HeapError → String
  | .encodingMisuse what => s!"header encoding misuse: {what.message}"
  | .unknownTag tag => s!"no descriptor registered for tag {tag}"
  | .capacityOverflow requested max =>
    s!"tail of {requested} units exceeds header capacity of {max}"
  | .heapCorruption tag tableSize =>
    s!"invalid heap object: tag {tag} outside table of {tableSize}"
  | .exhausted requested available =>
    s!"heap exhausted: {requested} bytes required, {available} available after scavenge"
  | .objectTooLarge requested nursery =>
    s!"object of {requested} bytes can never fit nursery of {nursery} bytes"
  | .rootImbalance expected found =>
    s!"shadow stack imbalance: released depth {found}, top is {expected}"
  | .immutableWrite type => s!"write to promoted immutable object {type}"

/-- The violation in words. -/
def Violation.message : Violation → String
  | .primOutOfRange type index => s!"{type}: primitive field {index} out of range"
  | .ptrOutOfRange type index => s!"{type}: pointer field {index} out of range"
  | .unitOutOfRange index size => s!"tail index {index} out of bounds for size {size}"
  | .tailHoldsRefs type => s!"{type}: tail holds pointers"
  | .tailHoldsWords type => s!"{type}: tail is not traced"
  | .epochOpen => "nursery epoch already in progress"
  | .noEpochToEnd => "end_epoch without begin_epoch"
  | .allocationInEpoch => "allocation during a nursery epoch"
  | .promotionOutsideEpoch => "promotion outside a nursery epoch"
  | .selfRedirect => "redirecting an object to itself"
  | .depthOutOfRange depth size => s!"depth {depth} outside stack of {size}"
  | .addressSpaceFull => "capacity overflow"
  | .wordNotInUse => "assertion failed: index < self.cursor"
  | .allocationStuck => "allocation fails after a collection"

/-- The fault in words; a fatal error says so. -/
def Fault.message : Fault → String
  | .refused error => error.message
  | .fatal error => "fatal: " ++ error.message
  | .violation v => v.message

/-- What a caller does with an error that it cannot handle: the error becomes fatal. -/
def Fault.escalate : Fault → Fault
  | .refused error => .fatal error
  | fault => fault

/-- Run a step whose error, if handed back, is fatal here. -/
def escalating {α : Type} : Except Fault α → Except Fault α
  | .ok a => .ok a
  | .error fault => .error fault.escalate

end Tenure
