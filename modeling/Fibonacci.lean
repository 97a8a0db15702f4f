import Fibonacci.Call
import Fibonacci.Main
import Fibonacci.Pair
import Fibonacci.Proofs.Congruence
import Fibonacci.Proofs.CallDepth
import Fibonacci.Proofs.PowersOfTwo
import Fibonacci.Proofs.TrailingZeros
import Fibonacci.Proofs.Acceptance
import Fibonacci.Proofs.Unambiguous
import Fibonacci.Proofs.LoopAndDoubling
import Fibonacci.Proofs.Identities
import Fibonacci.Proofs.Periods
import Fibonacci.Proofs.Ranges
import Fibonacci.Proofs.Numerals
import Fibonacci.Proofs.LineForm
import Fibonacci.Proofs.DecidingArgument
import Fibonacci.Proofs.Escaped
import Fibonacci.Proofs.DroppedText
import Fibonacci.Proofs.ShownText
import Fibonacci.Proofs.AlikeLetters
import Fibonacci.Proofs.MatchedPositions
import Fibonacci.Proofs.LargestMatching
import Fibonacci.Proofs.SymmetricSimilarity
import Fibonacci.Proofs.SimilarityBounds
import Fibonacci.Proofs.Misspelling
import Fibonacci.Proofs.SelectiveTips
import Fibonacci.Proofs.ContinuedWord
import Fibonacci.Proofs.ContinuedName
import Fibonacci.Proofs.PrintedForms
import Fibonacci.Proofs.Reports
import Fibonacci.Proofs.SimilarityRange
import Fibonacci.Proofs.SameTip
