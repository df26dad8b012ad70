/-!
Channels: where `print` writes its lines and where `inputi` and `inputs` read theirs.
-/

namespace ObjectLang

inductive Sink where
  /-- Standard output, with what has been written to it. -/
  | console (written : String)
  /-- Lines kept for the caller. -/
  | buffer (captured : String)
  | silent

namespace Sink

def println (line : String) : Sink → Sink
  | console written => console (written ++ line ++ "\n")
  | buffer captured => buffer (captured ++ line ++ "\n")
  | silent => silent

def captured : Sink → String
  | buffer captured => captured
  | console _ | silent => ""

def written : Sink → String
  | console written => written
  | buffer _ | silent => ""

end Sink

inductive Source where
  /-- Standard input, with the bytes still to come. -/
  | stream (bytes : List UInt8)
  | queue (lines : List String)

namespace Source

def newline : UInt8 := 10

def splitLine : List UInt8 → List UInt8 × List UInt8
  | [] => ([], [])
  | b :: bs =>
    if b = newline then ([b], bs)
    else
      let (line, rest) := splitLine bs
      (b :: line, rest)

def chomp (line : List Char) : List Char :=
  (line.reverse.dropWhile fun c => c == '\n' || c == '\r').reverse

def decodeLine? (bytes : List UInt8) : Option String :=
  (String.fromUTF8? bytes.toByteArray).map fun text => String.ofList (chomp text.toList)

/-- The next line. At the end of the input, and on bytes that encode no text, there is none. -/
def readLine : Source → Option String × Source
  | stream [] => (none, stream [])
  | stream (b :: bs) =>
    let (line, rest) := splitLine (b :: bs)
    (decodeLine? line, stream rest)
  | queue [] => (none, queue [])
  | queue (line :: lines) => (some line, queue lines)

end Source

end ObjectLang
