import Aitos.Fs.Bitmap

/-!
# Paths

`path_parse` and `path_depth_cnt`.  A path is the list of its characters; a buffer that receives a
component keeps whatever it held behind it.
-/

namespace Aitos.Fs

open Framework

abbrev Path := List UInt8

def slash : UInt8 := 47

/-- The characters of a string literal. -/
def path (str : String) : Path := str.toList.map fun c => UInt8.ofNat c.toNat

/-- The C string at the start of a buffer of `n` bytes. -/
def cstr (b : Bytes) : Nat → List UInt8
  | 0 => []
  | n + 1 => if b 0 = 0 then [] else b 0 :: cstr (b.drop 1) n

/-- What `path_parse` stores and returns. -/
structure Parsed where
  component : List UInt8
  rest : Option Path

def pathParse (pathname : Path) : Parsed :=
  let p := pathname.dropWhile (· = slash)
  let (component, rest) := p.span (· ≠ slash)
  ⟨component, if rest = [] then none else some rest⟩

/-- Store the characters of a component at the start of a buffer. -/
def storeName (name : Bytes) (component : List UInt8) : Bytes :=
  name.blit 0 component.length fun i => component.getD i 0

/-- The loop of `path_depth_cnt`; its buffer holds sixteen bytes. -/
def depthLoop : Nat → Option Path → Bytes → Nat → FsM Nat
  | 0, _, _, _ => fault .diverge
  | n + 1, p, name, depth =>
      if name 0 = 0 then return depth
      else
        match p with
        | none => depthLoop n none Bytes.zero (depth + 1)
        | some p => do
            let parsed := pathParse p
            require (parsed.component.length ≤ 16) .outOfBounds
            depthLoop n parsed.rest (storeName Bytes.zero parsed.component) (depth + 1)

/-- `path_depth_cnt`.  A path without components would test a byte that was never written. -/
def pathDepthCnt (pathname : Path) : FsM Nat := do
  let parsed := pathParse pathname
  require (parsed.component.length ≤ 16) .outOfBounds
  require (parsed.component ≠ []) .uninitialised
  depthLoop (pathname.length + 1) parsed.rest (storeName Bytes.zero parsed.component) 0

/-- `strrchr(pathname, '/') + 1` -/
def afterLastSlash (pathname : Path) : Path := (pathname.reverse.takeWhile (· ≠ slash)).reverse

example : (pathParse (path "///a/b")).component = path "a" := by decide

end Aitos.Fs
