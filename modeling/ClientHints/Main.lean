import ClientHints.CommandLine.Session

set_option autoImplicit false

namespace ClientHints.CommandLine

-- The number of a system error may come negated.
def refusal (error : IO.Error) : ReadFault :=
  let number := match error with
    | .noFileOrDirectory _ number _ => number.toNat
    | .inappropriateType _ number _ => number.toNat
    | .permissionDenied _ number _ => number.toNat
    | .invalidArgument _ number _ => number.toNat
    | .resourceExhausted _ number _ => number.toNat
    | .interrupted _ number _ => number.toNat
    | .otherError number _ => number.toNat
    | _ => 5
  .system (min number (UInt32.size - number))

def fetch : Source → IO (Except ReadFault Bytes)
  | .standardInput => do
    let stdin ← IO.getStdin
    if ← stdin.isTty then return .error .terminal
    let octets ← stdin.readBinToEnd
    return .ok octets.data.toList
  | .file path => do
    try
      let octets ← IO.FS.readBinFile path
      return .ok octets.data.toList
    catch error => return .error (refusal error)

def perform : Session → IO Output
  | .done output => return output
  | .reading source answer => return answer (← fetch source)

end ClientHints.CommandLine

def main (arguments : List String) : IO UInt32 := do
  let output ← ClientHints.CommandLine.perform (ClientHints.CommandLine.session arguments)
  IO.print output.stdout
  IO.eprint output.stderr
  return output.exitCode.toUInt32
