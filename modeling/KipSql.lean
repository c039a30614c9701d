import KipSql.Types.Value
import KipSql.Range.ConstantBinary
import KipSql.Range.ScopeAggregation
import KipSql.Range.Rearrange
import KipSql.Range.Embedding
import KipSql.Range.Normalize
import KipSql.Expression.ScalarExpression
import KipSql.Expression.Evaluator
import KipSql.Expression.Unpack
import KipSql.Expression.Simplify
import KipSql.Expression.SimplifyInvariants
import KipSql.Expression.SimplifySound
import KipSql.Expression.ConvertBinary
import KipSql.Expression.RangeExtraction
import KipSql.Expression.Pipeline
import KipSql.Planner.Limit
import KipSql.Serdes.Trim
import KipSql.Tpcc.OtherWare
