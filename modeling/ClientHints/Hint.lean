import ClientHints.Evidence.Basic

set_option autoImplicit false

namespace ClientHints

inductive Hint where
  | ua
  | fullVersionList
  | fullVersion
  | platform
  | platformVersion
  | arch
  | bitness
  | model
  | mobile
  | wow64
  | formFactors
deriving DecidableEq, Repr

namespace Hint

def all : List Hint :=
  [.ua, .fullVersionList, .fullVersion, .platform, .platformVersion, .arch, .bitness, .model, .mobile,
    .wow64, .formFactors]

def name : Hint → String
  | .ua => "ua"
  | .fullVersionList => "full-version-list"
  | .fullVersion => "full-version"
  | .platform => "platform"
  | .platformVersion => "platform-version"
  | .arch => "arch"
  | .bitness => "bitness"
  | .model => "model"
  | .mobile => "mobile"
  | .wow64 => "wow64"
  | .formFactors => "form-factors"

def headerName : Hint → String
  | .ua => "sec-ch-ua"
  | .fullVersionList => "sec-ch-ua-full-version-list"
  | .fullVersion => "sec-ch-ua-full-version"
  | .platform => "sec-ch-ua-platform"
  | .platformVersion => "sec-ch-ua-platform-version"
  | .arch => "sec-ch-ua-arch"
  | .bitness => "sec-ch-ua-bitness"
  | .model => "sec-ch-ua-model"
  | .mobile => "sec-ch-ua-mobile"
  | .wow64 => "sec-ch-ua-wow64"
  | .formFactors => "sec-ch-ua-form-factors"

def evidenceKey (hint : Hint) : String :=
  Origin.header.mark ++ hint.headerName

def sameHeader (a b : String) : Bool :=
  a.toList.map Char.toLower == b.toList.map Char.toLower

def ofHeaderName? (header : String) : Option Hint :=
  all.find? fun hint => sameHeader hint.headerName header

def ofEvidenceKey? (key : String) : Option Hint :=
  match Origin.header.field? key with
  | some field => ofHeaderName? field
  | none => none

end Hint

end ClientHints
