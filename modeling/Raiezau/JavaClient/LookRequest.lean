import Raiezau.JavaClient.Basic

/-!
# LookRequest — the search requests the Java client builds

`CriterionField`, `CriterionOP`, `Criterion` and `LookRequest`.  The constructor of `Criterion` is
private: requests are built by the calls of `LookCall` alone.
-/

namespace Raiezau
namespace JavaClient

open CUtil

inductive CriterionField
  | filename
  | key
  | filesize
  deriving DecidableEq, Repr

def CriterionField.toString : CriterionField → CString
  | .filename => "filename".toList
  | .key => "key".toList
  | .filesize => "filesize".toList

inductive CriterionOP
  | eq
  | ne
  | lt
  | le
  | gt
  | ge
  deriving DecidableEq, Repr

def CriterionOP.toString : CriterionOP → CString
  | .eq => "=".toList
  | .ne => "!=".toList
  | .lt => "<".toList
  | .le => "<=".toList
  | .gt => ">".toList
  | .ge => ">=".toList

structure Criterion where
  field : CriterionField
  op : CriterionOP
  text : CString
  deriving DecidableEq, Repr

namespace Criterion

def criterionFilename (filename : CString) : Criterion := ⟨.filename, .eq, filename⟩

def criterionKey (key : CString) : Criterion := ⟨.key, .eq, key⟩

def criterionSize (op : CriterionOP) (size : Int) : Criterion :=
  ⟨.filesize, op, integerToString size⟩

/-- What stands before the opening quote. -/
def head (c : Criterion) : CString := c.field.toString ++ c.op.toString

def toString (c : Criterion) : CString := c.head ++ '"' :: (c.text ++ ['"'])

end Criterion

/-- The list `criterions`. -/
abbrev LookRequest := List Criterion

namespace LookRequest

def addFilename (lr : LookRequest) (filename : CString) : LookRequest :=
  lr ++ [.criterionFilename filename]

def addKey (lr : LookRequest) (key : CString) : LookRequest := lr ++ [.criterionKey key]

def addSizeCriterion (lr : LookRequest) (op : CriterionOP) (size : Int) : LookRequest :=
  lr ++ [.criterionSize op size]

def toString (lr : LookRequest) : CString := [' '].intercalate (lr.map Criterion.toString)

end LookRequest

/-! ## Building a request -/

inductive LookCall
  | addFilename (filename : CString)
  | addKey (key : CString)
  | addSizeCriterion (op : CriterionOP) (size : Int)
  deriving DecidableEq, Repr

namespace LookCall

def run (lr : LookRequest) : LookCall → LookRequest
  | .addFilename filename => lr.addFilename filename
  | .addKey key => lr.addKey key
  | .addSizeCriterion op size => lr.addSizeCriterion op size

def criterion : LookCall → Criterion
  | .addFilename filename => .criterionFilename filename
  | .addKey key => .criterionKey key
  | .addSizeCriterion op size => .criterionSize op size

end LookCall

/-- The request that a sequence of calls builds. -/
def LookRequest.build (calls : List LookCall) : LookRequest := calls.foldl LookCall.run []

/-- The criteria stand in the order of the calls. -/
theorem LookRequest.build_eq (calls : List LookCall) :
    LookRequest.build calls = calls.map LookCall.criterion := by
  have hrun : ∀ lr call, LookCall.run lr call = lr ++ [call.criterion] := by
    intro lr call
    cases call <;> rfl
  have hfold : ∀ lr : LookRequest, calls.foldl LookCall.run lr = lr ++ calls.map LookCall.criterion := by
    induction calls with
    | nil => simp
    | cons call calls ih =>
        intro lr
        rw [List.foldl_cons, ih, hrun]
        simp
  exact hfold []

/-- `socket.send("look [%s]\n", lr)`. -/
def doLook (lr : LookRequest) : CString := "look [".toList ++ lr.toString ++ "]\n".toList

end JavaClient
end Raiezau
