import Mathlib.Data.Int.Notation

/-! The error numbers of `uapi/errno.h`. -/
namespace Doppio

def eINTR : ℤ := 4
def eAGAIN : ℤ := 11
def eNOMEM : ℤ := 12
def eFAULT : ℤ := 14
def ePIPE : ℤ := 32
def eTIMEDOUT : ℤ := 110

end Doppio
