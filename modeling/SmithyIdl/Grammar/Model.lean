import SmithyIdl.Grammar.Statement

/-!
# Model files

A file has control statements, then metadata, then a namespace with the shapes defined in it.
-/

namespace SmithyIdl.Grammar

open SmithyIdl.Parser

/-- `NodeObjectKey sign NodeValue` up to the end of the line. -/
def setting (sign : TokenKind) : Parser Unit := do
  objectKey
  spaces
  consume sign
  spaces
  nodeValue
  let _ ← endLine

/-- `"$" NodeObjectKey ":" NodeValue BR` -/
def controlStatement : Parser Unit := within .controlStatement do
  consumeAny
  setting .colon

def controlSection : Parser Unit := within .controlSection (repeatWhile (·.isAt .dollar) controlStatement)

/-- `"metadata" NodeObjectKey "=" NodeValue BR` -/
def metadataStatement : Parser Unit := within .metadataStatement do
  keyword
  someSpaces
  setting .equal

def metadataSection : Parser Unit :=
  within .metadataSection (repeatWhile (·.isAtKeyword "metadata") metadataStatement)

/-- A keyword with what it declares, up to the end of the line. -/
def declaration (kind : TreeKind) (declared : Parser Unit) : Parser Docs := do
  let statement ← scope kind do
    keyword
    someSpaces
    declared
    endLine
  return statement.value.join

/-- `"namespace" Namespace BR` -/
def namespaceStatement : Parser Docs := declaration .namespaceStatement namespaceId

/-- `"use" AbsoluteShapeId BR` -/
def useStatement : Parser Docs := declaration .useStatement absoluteShapeId

/-- Use statements. Documentation comments before the first of them are handed on where there is none. -/
def useSection (docs : Docs) : Parser Docs := do
  let uses ← scope .useSection do
    foldWhile (fun _ b => b.isAtKeyword "use") (fun _ => useStatement) docs
  return uses.value.join

/-- The namespace, or the report that it is missing. -/
def namespaceOrError : Parser Docs := do
  if ← isAtKeyword "namespace" then namespaceStatement
  else
    reportMissing (.noNamespace (← current))
    return none

/-- The namespace with all that is defined in it, unless the file ends before. -/
def shapeSection : Parser Unit := do
  if ← hasNext then
    within .shapeSection do
      let docs ← namespaceOrError
      let docs ← useSection docs
      shapeStatements docs

/-- Whatever a failed section left behind, as one error. -/
def leftOver : Parser Unit := do
  if ← hasNext then
    let token ← current
    report (← ask (·.syntaxError (.noEndOfFile token))) .endOfText

/-- A whole file. -/
def model : Parser Unit := do
  whitespace
  controlSection
  metadataSection
  shapeSection
  leftOver

end SmithyIdl.Grammar
