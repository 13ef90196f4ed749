import Cminusfc.Lib.Dominance
import Cminusfc.Lib.DepthFirst
import Cminusfc.LightIR.Cfg
import Cminusfc.Optimization.Dominators
import Cminusfc.Optimization.IdomChains
import Cminusfc.Optimization.DominatorsCorrect
import Cminusfc.LightIR.Ir
import Cminusfc.Optimization.ActiveVars
import Cminusfc.Optimization.ActiveVarsCorrect
import Cminusfc.Lib.Lockstep
import Cminusfc.LightIR.Exec
import Cminusfc.Codegen.RegAlloc
import Cminusfc.Codegen.Intervals
import Cminusfc.Codegen.PhiElim
import Cminusfc.LightIR.Edit
import Cminusfc.Codegen.PhiElimShape
import Cminusfc.Codegen.PhiElimCorrect
import Cminusfc.Optimization.DomTree
import Cminusfc.Optimization.Mem2Reg
import Cminusfc.Optimization.Mem2RegPhis
import Cminusfc.Optimization.Mem2RegWalk
import Cminusfc.Lib.Fallible
import Cminusfc.Optimization.Mem2RegOrder
import Cminusfc.Optimization.Mem2RegComplete
import Cminusfc.Optimization.Mem2RegValues
import Cminusfc.Optimization.Mem2RegRename
import Cminusfc.Optimization.Mem2RegResult
import Cminusfc.Optimization.Mem2RegCorrect
import Cminusfc.Optimization.Mem2RegStacks
import Cminusfc.Codegen.LinearScan
import Cminusfc.Codegen.LinearScanCorrect
import Cminusfc.LightIR.UseLists
import Cminusfc.Optimization.LoopInvHoist
import Cminusfc.Codegen.PhiElimUses
import Cminusfc.Codegen.ArgUses
import Cminusfc.Optimization.LivePaths
import Cminusfc.Lib.Tarjan
import Cminusfc.Lib.NaturalLoop
import Cminusfc.Optimization.LoopSearch
import Cminusfc.Optimization.LoopSearchCorrect
import Cminusfc.Lib.Riscv
import Cminusfc.Codegen.Instgen
import Cminusfc.Codegen.Codegen
import Cminusfc.Codegen.CodegenSpec
import Cminusfc.Codegen.Text
import Cminusfc.Codegen.Canonical
import Cminusfc.Codegen.CanonicalLines
import Cminusfc.Codegen.CanonicalCorrect
import Cminusfc.Codegen.Moves
import Cminusfc.Codegen.Elements
import Cminusfc.Codegen.ElementsCorrect
import Cminusfc.Codegen.ElementsExact
import Cminusfc.LightIR.Ssa
import Cminusfc.Optimization.ConstPropagation
import Cminusfc.Optimization.ConstFold
import Cminusfc.Optimization.ConstFoldCorrect
import Cminusfc.Optimization.ConstDivision
import Cminusfc.Optimization.ConstLoads
import Cminusfc.Optimization.LoopInvHoistOrder
import Cminusfc.Codegen.Temps
import Cminusfc.Frontend.Ast
import Cminusfc.Frontend.Builder
import Cminusfc.Frontend.Emission
import Cminusfc.LightIR.Types
import Cminusfc.LightIR.Trace
import Cminusfc.Frontend.Effects
import Cminusfc.LightIR.Path
import Cminusfc.Frontend.Typing
import Cminusfc.Frontend.Comparisons
import Cminusfc.Frontend.Connected
import Cminusfc.Frontend.Reach
import Cminusfc.Frontend.Scoping
import Cminusfc.Frontend.SyntaxTree
import Cminusfc.Frontend.Transform
import Cminusfc.Frontend.Unparse
import Cminusfc.Frontend.TransformCorrect
import Cminusfc.Frontend.TransformText
import Cminusfc.Frontend.NodeNames
import Cminusfc.Lib.Lexing
import Cminusfc.Frontend.Lexer
import Cminusfc.Frontend.Positions
import Cminusfc.Frontend.Comments
import Cminusfc.Lib.Grammar
import Cminusfc.Frontend.Unambiguous
import Cminusfc.Codegen.Constants
import Cminusfc.LightIR.DefUse
import Cminusfc.Lib.Decimal
import Cminusfc.Codegen.Lines
import Cminusfc.Codegen.FloatData
import Cminusfc.Lib.Layout
import Cminusfc.Codegen.Spills
import Cminusfc.Codegen.Frame
import Cminusfc.Codegen.Immediates
import Cminusfc.LightIR.Computes
import Cminusfc.Frontend.Semantics
import Cminusfc.Frontend.Stores
import Cminusfc.Frontend.Agreement
import Cminusfc.Frontend.Simulation
import Cminusfc.Frontend.EffectFree
import Cminusfc.Frontend.Flags
import Cminusfc.Frontend.EffectOrder
import Cminusfc.Frontend.Assembly
import Cminusfc.Frontend.ExpressionsCorrect
import Cminusfc.Frontend.StatementsCorrect
import Cminusfc.Frontend.FunctionsCorrect
import Cminusfc.Frontend.Branches
import Cminusfc.Frontend.UsesExact
import Cminusfc.Frontend.Visits
import Cminusfc.Frontend.WellFormed
import Cminusfc.Pipeline
