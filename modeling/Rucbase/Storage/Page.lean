import Mathlib.Tactic.Common
import Mathlib.Logic.Function.Basic

/-!
# Pages, page ids and errors

The constants of `common/config.h`, the `PageId` of `storage/page.h`, the `Rid` of
`defs.h` and the exceptions of `errors.h` that the modelled code raises. Page numbers
are mathematical integers (`page_id_t` is 32 bits wide; nothing below depends on
where it wraps), and the 4096 bytes of a page are a function on `Fin pageSize`.
-/

namespace Rucbase

/-- `INVALID_PAGE_ID`. -/
def invalidPageId : Int := -1

/-- `PAGE_SIZE`, in bytes. -/
def pageSize : Nat := 4096

theorem pageSize_pos : 0 < pageSize := by decide

/-- The bytes of one page, `char data_[PAGE_SIZE]`. -/
abbrev PageData := Fin pageSize → UInt8

/-- What `ResetMemory` leaves. -/
def zeroPage : PageData := fun _ => 0

/-- `PageId`: the descriptor of an open file and a page number in it. -/
structure PageId where
  fd : Int
  pageNo : Int
deriving DecidableEq, Repr

/-- `Rid`: where a record sits (or, in an inner index node, which page a child is). -/
structure Rid where
  pageNo : Int
  slotNo : Int
deriving DecidableEq, Repr

/-- The subclasses of `RedBaseError` that the modelled functions throw, and `std::bad_alloc` and
`std::out_of_range`. The last three are no exceptions: an `assert` failed; a loop or a recursion
went past the number of rounds it was given; or the C++ program has no defined behaviour from there
on (a null page is used, or a signed integer overflows). -/
inductive RedBaseError where
  | unixError
  | fileNotOpenError (fd : Int)
  | fileNotClosedError (filename : String)
  | fileExistsError (filename : String)
  | fileNotFoundError (filename : String)
  | invalidRecordSizeError (recordSize : Int)
  | invalidColLengthError (colLen : Int)
  | pageNotExistError (tableName : String) (pageNo : Int)
  | recordNotFoundError (pageNo slotNo : Int)
  | tableExistsError (tabName : String)
  | tableNotFoundError (tabName : String)
  | columnNotFoundError (colName : String)
  | indexExistsError (tabName colName : String)
  | indexNotFoundError (tabName colName : String)
  | stringOverflowError
  | incompatibleTypeError (lhs rhs : String)
  | badAlloc
  | outOfRange
  | indexEntryNotFoundError
  | assertionFailure
  | outOfFuel
  | undefinedBehaviour
deriving DecidableEq, Repr

end Rucbase
