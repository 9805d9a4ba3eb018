import MailruHttp.Foundation.Bytes

/-! The server options of `cmd/parse.h`. -/

namespace MailruHttp.Cmd

/-- The directory comes from a command line argument, a C string without NUL. -/
structure Options where
  directory : List UInt8 := bytes "."
  directory_cString : 0 ∉ directory := by decide

end MailruHttp.Cmd
